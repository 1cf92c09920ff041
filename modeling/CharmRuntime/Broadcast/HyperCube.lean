import CharmRuntime.Broadcast.Machine
import Mathlib.Data.Nat.Factorization.Basic
import Mathlib.Tactic.Ring

/-!
# Broadcast along the hypercube

Counted from the start node on, node `x` sends to the nodes `x + 2 ^ j` that exist, for all powers
below the lowest bit of `x`; the start node itself sends to all powers of two. The parent of a
number is got by clearing its lowest bit, so the sends form a tree.

`CmiSyncBroadcastFn1` stores the number of the node in the message, plus one, and
`SendHyperCubeProc` takes it for the number of a processor. The two agree on the start node only if
the nodes before it have one processor each; otherwise the node that is taken for the start is never
reached (`hyperCube_exactlyOnce_iff`, `hyperCube_misses_node`). The version for nodes has no such
mistake. More than `2 ^ 30` nodes do not fit: `1 << 31` is negative.
-/

set_option autoImplicit false

namespace CharmRuntime.Broadcast.Machine

open Lib Words List Option

/-! ## The lowest bit -/

/-- The lowest bit of a number of 32 bits. -/
def lowBit (x : Nat) : Nat := x &&& (2 ^ 32 - x)

theorem lowBit_odd_mul {k t : Nat} (hlt : (2 * k + 1) * 2 ^ t < 2 ^ 32) :
    lowBit ((2 * k + 1) * 2 ^ t) = 2 ^ t := and_neg_self hlt

theorem lowBit_two_pow {t : Nat} (hlt : 2 ^ t < 2 ^ 32) : lowBit (2 ^ t) = 2 ^ t := by
  have := lowBit_odd_mul (k := 0) (t := t) (by omega)
  rwa [mul_zero, zero_add, one_mul] at this

/-- A positive number is an odd multiple of a power of two. -/
theorem exists_odd_mul {x : Nat} (hx : 0 < x) : ∃ t k, x = (2 * k + 1) * 2 ^ t := by
  obtain ⟨t, _, ⟨k, rfl⟩, rfl⟩ := Nat.exists_eq_two_pow_mul_odd hx.ne'
  exact ⟨t, k, mul_comm _ _⟩

theorem lowestBit_natCast {x : Nat} (h0 : 0 < x) (hx : x < 2 ^ 31) : lowestBit x = lowBit x := by
  obtain ⟨t, k, rfl⟩ := exists_odd_mul h0
  have hpow : 2 ^ t ≤ (2 * k + 1) * 2 ^ t := Nat.le_mul_of_pos_left _ (by omega)
  have hand := lowBit_odd_mul (k := k) (t := t) (by omega)
  rw [lowBit] at hand ⊢
  generalize (2 * k + 1) * 2 ^ t = x at *
  have hnat : (BitVec.ofInt 32 x).toNat = x := by
    rw [BitVec.toNat_ofInt]
    omega
  have hone : (1 : BitVec 32).toNat = 1 := rfl
  have hneg : (~~~ BitVec.ofInt 32 x + 1).toNat = 2 ^ 32 - x := by
    rw [BitVec.toNat_add, BitVec.toNat_not, hnat, hone]
    omega
  rw [lowestBit, BitVec.toInt_eq_toNat_cond, BitVec.toNat_and, hneg, hnat, hand, if_pos (by omega)]

/-! ## The children of a node -/

/-- The numbers `x + 2 ^ j` below `n`, for the powers below `2 ^ t`. -/
def cubeChildren (n x : Nat) : Nat → List Nat
  | 0 => []
  | t + 1 => if x + 2 ^ t < n then (x + 2 ^ t) :: cubeChildren n x t else cubeChildren n x t

theorem mem_cubeChildren {n x t c : Nat} : c ∈ cubeChildren n x t ↔ c < n ∧ ∃ j < t,
    c = x + 2 ^ j := by
  induction t with
  | zero => simp [cubeChildren]
  | succ t ih =>
    have hsplit : (∃ j < t + 1, c = x + 2 ^ j) ↔ c = x + 2 ^ t ∨ ∃ j < t, c = x + 2 ^ j := by
      constructor
      · rintro ⟨j, hj, rfl⟩
        rcases Nat.lt_succ_iff_lt_or_eq.1 hj with hj | rfl
        · exact .inr ⟨j, hj, rfl⟩
        · exact .inl rfl
      · rintro (rfl | ⟨j, hj, rfl⟩)
        · exact ⟨t, by omega, rfl⟩
        · exact ⟨j, by omega, rfl⟩
    rw [cubeChildren, hsplit]
    split
    · next hlt =>
      rw [mem_cons, ih]
      constructor
      · rintro (rfl | ⟨hc, hj⟩)
        · exact ⟨hlt, .inl rfl⟩
        · exact ⟨hc, .inr hj⟩
      · rintro ⟨hc, rfl | hj⟩
        · exact .inl rfl
        · exact .inr ⟨hc, hj⟩
    · next hlt =>
      rw [ih]
      constructor
      · rintro ⟨hc, hj⟩
        exact ⟨hc, .inr hj⟩
      · rintro ⟨hc, rfl | hj⟩
        · exact absurd hc hlt
        · exact ⟨hc, hj⟩

theorem nodup_cubeChildren (n x t : Nat) : (cubeChildren n x t).Nodup := by
  induction t with
  | zero => exact nodup_nil
  | succ t ih =>
    rw [cubeChildren]
    split
    · refine nodup_cons.2 ⟨fun hmem => ?_, ih⟩
      -- the powers that follow are smaller
      obtain ⟨-, j, hj, heq⟩ := mem_cubeChildren.1 hmem
      have := Nat.pow_lt_pow_right (by decide : 1 < 2) hj
      omega
    · exact ih

/-- The number of powers of two that node `x` may add. -/
def cubeOrder (m : Machine) (x : Nat) : Nat := if x = 0 then m.nodesDim else Nat.log2 (lowBit x)

variable {m : Machine} {r x rank : Nat} {msg : BcastMsg}

theorem cubeOrder_odd_mul {k t : Nat} (hlt : (2 * k + 1) * 2 ^ t < 2 ^ 32) :
    m.cubeOrder ((2 * k + 1) * 2 ^ t) = t := by
  have hpos : 0 < (2 * k + 1) * 2 ^ t := Nat.mul_pos (by omega) (Nat.two_pow_pos t)
  rw [cubeOrder, if_neg (by omega), lowBit_odd_mul hlt, Nat.log2_two_pow]

/-! ## The dimension -/

theorem dimLoop_le_iff (tmp d : Nat) : dimLoop tmp ≤ d ↔ tmp < 2 ^ d := by
  induction tmp using Nat.strongRecOn generalizing d with
  | _ tmp ih =>
    rw [dimLoop]
    split
    · next hpos =>
      cases d with
      | zero =>
        omega
      | succ d =>
        rw [Nat.add_le_add_iff_right, ih (tmp / 2) (by omega), pow_succ]
        omega
    · have := Nat.two_pow_pos d
      omega

/-- `CmiNodesDim` is the least positive exponent with a power that is not below the number of
nodes. -/
theorem nodesDim_le_iff (m : Machine) (d : Nat) : m.nodesDim ≤ d ↔ 1 ≤ d ∧ m.numNodes ≤ 2 ^ d := by
  have hN := m.numNodes_pos
  have hpow := Nat.two_pow_pos d
  rw [nodesDim]
  split
  · omega
  · rw [dimLoop_le_iff]
    constructor
    · intro h
      refine ⟨?_, by omega⟩
      rcases Nat.eq_zero_or_pos d with rfl | hd
      · omega
      · exact hd
    · rintro ⟨-, h⟩
      omega

theorem numNodes_le_two_pow (m : Machine) : m.numNodes ≤ 2 ^ m.nodesDim :=
  ((nodesDim_le_iff m m.nodesDim).1 le_rfl).2

/-! ## The tree -/

theorem mem_cubeChildren_iff {c : Nat} (hx : x < m.numNodes) :
    c ∈ cubeChildren m.numNodes x (m.cubeOrder x) ↔ 0 < c ∧ c < m.numNodes ∧ c - lowBit c = x := by
  have hN := m.numNodes_lt
  rw [mem_cubeChildren]
  constructor
  · rintro ⟨hc, j, hj, rfl⟩
    have hpow := Nat.two_pow_pos j
    refine ⟨by omega, hc, ?_⟩
    rcases Nat.eq_zero_or_pos x with rfl | h0
    · rw [zero_add, lowBit_two_pow (by omega), Nat.sub_self]
    · -- the lowest bit of `x` is above `2 ^ j`
      obtain ⟨t, k, rfl⟩ := exists_odd_mul h0
      rw [cubeOrder_odd_mul (by omega)] at hj
      obtain ⟨i, rfl⟩ : ∃ i, t = j + 1 + i := ⟨t - (j + 1), by omega⟩
      have hsum : (2 * k + 1) * 2 ^ (j + 1 + i) + 2 ^ j =
          (2 * ((2 * k + 1) * 2 ^ i) + 1) * 2 ^ j := by
        ring
      rw [hsum, lowBit_odd_mul (by omega), ← hsum, Nat.add_sub_cancel]
  · rintro ⟨h0, hc, rfl⟩
    obtain ⟨j, k, rfl⟩ := exists_odd_mul h0
    have hlow := lowBit_odd_mul (k := k) (t := j) (by omega)
    have hx' : (2 * k + 1) * 2 ^ j - 2 ^ j = 2 * k * 2 ^ j := by
      rw [add_mul, one_mul, Nat.add_sub_cancel]
    refine ⟨hc, j, ?_, by rw [hlow, hx', add_mul, one_mul]⟩
    rw [hlow, hx'] at hx ⊢
    rcases Nat.eq_zero_or_pos k with rfl | hk
    · -- a power of two below the number of nodes
      rw [mul_zero, zero_mul, cubeOrder, if_pos rfl]
      rw [mul_zero, zero_add, one_mul] at hc
      exact (Nat.pow_lt_pow_iff_right (by decide)).1 (lt_of_lt_of_le hc m.numNodes_le_two_pow)
    · obtain ⟨s, k', rfl⟩ := exists_odd_mul hk
      have heq : 2 * ((2 * k' + 1) * 2 ^ s) * 2 ^ j = (2 * k' + 1) * 2 ^ (s + 1 + j) := by
        ring
      rw [heq] at hx ⊢
      rw [cubeOrder_odd_mul (by omega)]
      omega

/-- Adding the lowest bit to a number does not lead past a power of two above it. -/
theorem odd_mul_add_le {k t w : Nat} (hlt : (2 * k + 1) * 2 ^ t < 2 ^ w) :
    (2 * k + 1) * 2 ^ t + 2 ^ t ≤ 2 ^ w := by
  -- both sides are multiples of the lowest bit
  obtain ⟨q, hq⟩ := Nat.pow_dvd_pow 2 (lt_of_odd_mul_lt hlt).le
  rw [hq, mul_comm] at hlt ⊢
  exact Nat.mul_le_mul_left _ (Nat.lt_of_mul_lt_mul_left hlt)

section Loop

variable (hN : m.numNodes ≤ 2 ^ 30) (hx : x < m.numNodes)

include hN hx

/-- The sums that the loop computes are in range. -/
theorem add_two_pow_cubeOrder : x + 2 ^ m.cubeOrder x ≤ 2 ^ 30 := by
  rcases Nat.eq_zero_or_pos x with rfl | h0
  · have hdim := (nodesDim_le_iff m 30).2 ⟨by decide, hN⟩
    rw [zero_add, cubeOrder, if_pos rfl]
    exact Nat.pow_le_pow_right (by decide) hdim
  · obtain ⟨t, k, rfl⟩ := exists_odd_mul h0
    rw [cubeOrder_odd_mul (by omega)]
    exact odd_mul_add_le (by omega)

/-! ## The loop -/

theorem hyperCubeLoop_eq (hr : r < m.numNodes) (t : Nat) (ht : x + 2 ^ t ≤ 2 ^ 30) :
    m.hyperCubeLoop (m.nodeAt r x) x r (((2 ^ t : Nat) : Int) / 2) =
      some ((cubeChildren m.numNodes x t).map (m.nodeAt r)) := by
  induction t with
  | zero =>
    rw [hyperCubeLoop, if_neg (by decide)]
    rfl
  | succ t ih =>
    have hpow := Nat.two_pow_pos t
    have hcnt : ((2 ^ (t + 1) : Nat) : Int) / 2 = (2 ^ t : Nat) := by omega
    have hnext := ih (by omega)
    have hnd : toInt32 ((x : Int) + (2 ^ t : Nat)) = (x + 2 ^ t : Nat) := by
      rw [← Int.natCast_add, toInt32_natCast (by omega)]
    rw [hcnt, hyperCubeLoop, if_pos (by omega), cubeChildren]
    rw [hnd]
    by_cases hc : x + 2 ^ t < m.numNodes
    · have hne : m.nodeAt r (x + 2 ^ t) ≠ m.nodeAt r x := by
        intro heq
        have := nodeAt_inj hr hc hx heq
        omega
      rw [if_neg (by omega), if_pos hc, tmod_nodeAt (by omega), if_pos (by omega), hnext]
      rfl
    · rw [if_pos (by omega), if_neg hc, hnext]

/-- The first distance of `SendHyperCube`, before it is halved. -/
theorem cnt_eq : (if (x : Int) = 0 then toInt32 (2 ^ m.nodesDim) else lowestBit x) =
      (2 ^ m.cubeOrder x : Nat) := by
  have hfit := add_two_pow_cubeOrder hN hx
  rcases Nat.eq_zero_or_pos x with rfl | h0
  · rw [cubeOrder, if_pos rfl] at hfit
    rw [cubeOrder, if_pos rfl, if_pos (by omega),
      ← toInt32_natCast (x := 2 ^ m.nodesDim) (by omega)]
    rfl
  · obtain ⟨t, k, rfl⟩ := exists_odd_mul h0
    rw [if_neg (by omega), cubeOrder_odd_mul (by omega), lowestBit_natCast h0 (by omega),
      lowBit_odd_mul (by omega)]

theorem sendHyperCube_eq (hr : r < m.numNodes) (msg : BcastMsg) (rank : Nat) :
    m.sendHyperCube (m.nodeAt r x) msg rank r = some
    ((cubeChildren m.numNodes x (m.cubeOrder x)).map
        (m.code r { msg with destRank := rank })) := by
  rw [sendHyperCube, relDist_nodeAt hr hx, cnt_eq hN hx,
    hyperCubeLoop_eq hN hx hr _ (add_two_pow_cubeOrder hN hx), map_some, copies,
    List.map_map]
  rfl

end Loop

section

variable (hr : r < m.numNodes)

include hr

theorem hyperCube_tree (hN : m.numNodes ≤ 2 ^ 30) (msg : BcastMsg)
    (hreceive : ∀ x < m.numNodes, m.receive (m.code r msg x) =
      m.sendHyperCube (m.nodeAt r x) msg msg.destRank r) :
    NumberedTree m.receive (m.code r msg) m.numNodes
      (fun x => cubeChildren m.numNodes x (m.cubeOrder x)) (fun c => c - lowBit c) where
  forward_code x hx := by
    rw [hreceive x hx, sendHyperCube_eq hN hx hr]
  nodup x _ := nodup_cubeChildren ..
  mem_children x hx c := mem_cubeChildren_iff hx
  parent_lt c h0 hc := by
    obtain ⟨t, k, rfl⟩ := exists_odd_mul h0
    rw [lowBit_odd_mul (by omega)]
    have := Nat.two_pow_pos t
    omega

/-! ## A wrong start node

Whatever node is taken for the start, nobody sends to it. -/

theorem hyperCubeLoop_ne (hx : x < m.numNodes) (cnt : Nat)
    (hfit : x + cnt < 2 ^ 31) {nodes : List Nat}
    (h : m.hyperCubeLoop (m.nodeAt r x) x r cnt = some nodes) :
    ∀ nd ∈ nodes, nd < m.numNodes ∧ nd ≠ r := by
  have hlt := m.numNodes_lt
  induction cnt using Nat.strongRecOn generalizing nodes with
  | _ cnt ih =>
    rw [hyperCubeLoop] at h
    by_cases hpos : 0 < cnt
    · rw [if_pos (by omega)] at h
      dsimp only at h
      have hhalf : (cnt : Int) / 2 = (cnt / 2 : Nat) := by omega
      have hnd : toInt32 ((x : Int) + cnt) = (x + cnt : Nat) := by
        rw [← Int.natCast_add, toInt32_natCast (by omega)]
      have hih := fun nodes => @ih (cnt / 2) (by omega) (by omega) nodes
      rw [hnd, hhalf] at h
      by_cases hc : x + cnt < m.numNodes
      · rw [if_neg (by omega)] at h
        split at h
        · next hok =>
          obtain ⟨rest, hrest, rfl⟩ := map_eq_some_iff.1 h
          rw [forall_mem_cons]
          refine ⟨?_, hih _ hrest⟩
          by_cases hsum : x + cnt + r < 2 ^ 31
          · rw [tmod_nodeAt hsum, Int.toNat_natCast]
            refine ⟨m.nodeAt_lt _ _, fun heq => ?_⟩
            have := nodeAt_inj hr hc m.numNodes_pos (heq.trans (nodeAt_zero hr).symm)
            omega
          · -- the sum is negative as an `int`, so its remainder can only be zero
            have hneg : toInt32 (((x + cnt : Nat) : Int) + r) < 0 := by
              rw [toInt32]
              omega
            have hzero := Int.tmod_nonneg (a := -toInt32 (((x + cnt : Nat) : Int) + r))
              m.numNodes (by omega)
            rw [Int.neg_tmod] at hzero
            omega
        · cases h
      · rw [if_pos (by omega)] at h
        exact hih _ h
    · rw [if_neg (by omega)] at h
      cases h
      exact forall_mem_nil _

/-- More than `2 ^ 30` nodes: the start node sends nothing. -/
theorem sendHyperCube_many (hN : 2 ^ 30 < m.numNodes) (msg : BcastMsg)
    (rank : Nat) : m.sendHyperCube r msg rank r = some [] := by
  have hlt := m.numNodes_lt
  have hdim : m.nodesDim = 31 := by
    have hle := (nodesDim_le_iff m 31).2 ⟨by decide, by omega⟩
    have hgt := mt (nodesDim_le_iff m 30).1 (by omega)
    omega
  have hrel := relDist_nodeAt hr m.numNodes_pos
  rw [nodeAt_zero hr] at hrel
  rw [sendHyperCube, hrel, if_pos (by omega), hdim, hyperCubeLoop, if_neg (by decide)]
  rfl

theorem sendHyperCube_ne (hx : x < m.numNodes)
    {ps : List Packet} (h : m.sendHyperCube (m.nodeAt r x) msg rank r = some ps) :
    ∀ p ∈ ps, p.msg = { msg with destRank := rank } ∧ m.nodeOf p.destPE < m.numNodes ∧
      m.nodeOf p.destPE ≠ r := by
  have hlt := m.numNodes_lt
  by_cases hN : m.numNodes ≤ 2 ^ 30
  · rw [sendHyperCube_eq hN hx hr] at h
    cases h
    intro p hp
    obtain ⟨c, hc, rfl⟩ := mem_map.1 hp
    obtain ⟨h0, hc, -⟩ := (mem_cubeChildren_iff hx).1 hc
    refine ⟨rfl, ?_, fun heq => ?_⟩
    · rw [nodeOf_code]
      exact m.nodeAt_lt r c
    · rw [nodeOf_code] at heq
      have := nodeAt_inj hr hc m.numNodes_pos (heq.trans (nodeAt_zero hr).symm)
      omega
  · rcases Nat.eq_zero_or_pos x with rfl | h0
    · rw [nodeAt_zero hr, sendHyperCube_many hr (by omega)] at h
      cases h
      exact nofun
    · rw [sendHyperCube, relDist_nodeAt hr hx, if_neg (by omega), lowestBit_natCast h0 (by omega)]
        at h
      obtain ⟨nodes, hnodes, rfl⟩ := map_eq_some_iff.1 h
      have hfit : x + lowBit x / 2 < 2 ^ 31 := by
        obtain ⟨t, k, rfl⟩ := exists_odd_mul h0
        rw [lowBit_odd_mul (by omega)]
        have := odd_mul_add_le (w := 31) (by omega : (2 * k + 1) * 2 ^ t < 2 ^ 31)
        omega
      intro p hp
      obtain ⟨nd, hnd, rfl⟩ := mem_map.1 hp
      have hne := hyperCubeLoop_ne hr hx _ hfit hnodes nd hnd
      refine ⟨rfl, ?_⟩
      rwa [m.nodeOf_nodeFirst hne.1]

end

/-- If every node takes `s` for the start and the broadcast does not start there, `s` is never
reached. -/
theorem not_exactlyOnce_of_start {s : Nat} (hs : s < m.numNodes) (hne : s ≠ r)
    {first : BcastMsg} (hr : r < m.numNodes) (hrank : msg = { first with destRank := rank })
    (hreceive : ∀ nd < m.numNodes, m.handleOneBcastMsg nd msg = m.sendHyperCube nd msg rank s) :
    ¬ m.ExactlyOnce r (m.sendHyperCube r first rank s) := by
  rintro ⟨ps, hps, -, ⟨es, t, hrun, hend⟩, hall⟩
  obtain ⟨-, -, -, -, hreached⟩ := hall es t hrun
  have hone := hreached hend s hs hne
  -- a copy for the broadcast that is not for `s`
  have hsent : ∀ nd < m.numNodes, ∀ sent : BcastMsg, msg = { sent with destRank := rank } →
      ∀ next, m.sendHyperCube nd sent rank s = some next →
      ∀ p ∈ next, p.msg = msg ∧ m.nodeOf p.destPE < m.numNodes ∧ m.nodeOf p.destPE ≠ s := by
    intro nd hnd sent hmsg next hnext p hp
    obtain ⟨x, hx, rfl⟩ := exists_nodeAt hs hnd
    obtain ⟨hp1, hp2⟩ := sendHyperCube_ne hs hx hnext p hp
    exact ⟨hp1.trans hmsg.symm, hp2⟩
  have hinv : (∀ p ∈ t.inFlight, p.msg = msg ∧ m.nodeOf p.destPE < m.numNodes ∧
      m.nodeOf p.destPE ≠ s) ∧ ∀ p ∈ t.received, m.nodeOf p.destPE ≠ s := by
    apply hrun.invariant (P := fun t => (∀ p ∈ t.inFlight, p.msg = msg ∧
      m.nodeOf p.destPE < m.numNodes ∧ m.nodeOf p.destPE ≠ s) ∧
      ∀ p ∈ t.received, m.nodeOf p.destPE ≠ s)
    · exact ⟨hsent r hr first hrank ps hps, nofun⟩
    · rintro a x b ⟨hflight, hgot⟩ hstep
      cases hstep with
      | @deliver before after received next _ hnext =>
        obtain ⟨hmsg, hlt, hx⟩ := hflight x (by simp)
        rw [receive, hmsg, hreceive _ hlt] at hnext
        have hrest := (forall_mem_append.1 hflight).imp_right fun h => (forall_mem_cons.1 h).2
        exact ⟨forall_mem_append.2 ⟨forall_mem_append.2 hrest,
          hsent _ hlt msg (by rw [hrank]) next hnext⟩, forall_mem_concat hgot hx⟩
  have hzero : m.receipts t s = 0 := by
    apply count_eq_zero_of_not_mem
    intro hmem
    obtain ⟨p, hp, heq⟩ := mem_map.1 hmem
    exact hinv.2 p hp heq
  omega

/-! ## Exactly once -/

section Theorems

variable (myRank : Nat) (msg : BcastMsg) (hscheme : m.scheme = .hyperCube) (hr : r < m.numNodes)

include hscheme hr

theorem cmiSyncBroadcastFn1_hyperCube : m.cmiSyncBroadcastFn1 r myRank msg =
      m.sendHyperCube r ⟨myRank, r + 1⟩ 0 (m.nodeOf r) ∧ ∀ nd : Nat,
      m.handleOneBcastMsg nd ⟨0, r + 1⟩ =
      m.sendHyperCube nd ⟨0, r + 1⟩ 0 (m.nodeOf r) := by
  have hlt := m.numNodes_lt
  have hle := m.numNodes_le_numPes
  obtain ⟨hroot, hstart⟩ := procRoot_toInt32 hr
  -- the number of a node is the number of some processor
  have hproc : ∀ (nd : Int) (rank : Nat), m.sendHyperCubeProc nd ⟨rank, r + 1⟩ =
      m.sendHyperCube nd ⟨rank, r + 1⟩ 0 (m.nodeOf r) := by
    intro nd rank
    rw [sendHyperCubeProc, hstart, if_neg (by omega), Int.toNat_natCast]
  constructor
  · rw [cmiSyncBroadcastFn1, sendProc, hscheme, hroot]
    exact hproc r myRank
  · intro nd
    rw [handleOneBcastMsg, if_pos (by dsimp only; omega), if_pos (by dsimp only; omega),
      processProcBcastMsg, if_pos rfl, sendProc, hscheme]
    exact hproc nd 0

theorem cmiSyncNodeBroadcastFn_hyperCube : m.cmiSyncNodeBroadcastFn r msg =
      m.sendHyperCube r ⟨msg.destRank, -r - 1⟩ dgramNodeMessage r ∧
    ∀ nd : Nat, m.handleOneBcastMsg nd ⟨dgramNodeMessage, -r - 1⟩ =
      m.sendHyperCube nd ⟨dgramNodeMessage, -r - 1⟩ dgramNodeMessage r := by
  obtain ⟨hroot, hstart⟩ := nodeRoot_toInt32 hr
  constructor
  · rw [cmiSyncNodeBroadcastFn, sendNode, hscheme, hroot]
    rw [sendHyperCubeNode, hstart]
  · intro nd
    rw [handleOneBcastMsg, if_pos (by dsimp only; omega), if_neg (by dsimp only; omega), sendNode,
      hscheme]
    rw [sendHyperCubeNode, hstart]

omit hscheme in
/-- A broadcast in which every node takes the right node for the start. -/
theorem exactlyOnce_hyperCube_iff (first copy : BcastMsg)
    (hcopy : copy = { first with destRank := copy.destRank })
    (hreceive : ∀ nd : Nat, m.handleOneBcastMsg nd copy = m.sendHyperCube nd copy copy.destRank r) :
    m.ExactlyOnce r (m.sendHyperCube r first copy.destRank r) ↔ m.numNodes ≤ 2 ^ 30 := by
  constructor
  · rintro ⟨ps, hps, -, -, hall⟩
    by_contra hN
    -- nothing is sent at all, so another node is not reached
    rw [sendHyperCube_many hr (by omega)] at hps
    cases hps
    obtain ⟨-, -, -, -, hreached⟩ := hall [] _ Run.nil
    have := hreached rfl (if r = 0 then 1 else 0) (by split <;> omega) (by split <;> omega)
    rw [receipts, map_nil, count_nil] at this
    omega
  · intro hN
    refine exactlyOnce_of_tree hr (hyperCube_tree hr hN copy fun x hx => ?_) ?_
    · rw [receive, nodeOf_code, code, hreceive]
    · have := sendHyperCube_eq hN m.numNodes_pos hr first copy.destRank
      rwa [nodeAt_zero hr, ← hcopy] at this

end Theorems

/-- A broadcast for processors along the hypercube reaches every node but the first exactly once if
and only if every node before the first has one processor, and there are at most `2 ^ 30` nodes. A
broadcast for nodes only needs the latter. -/
theorem hyperCube_exactlyOnce_iff (m : Machine) (r myRank : Nat) (msg : BcastMsg)
    (hscheme : m.scheme = .hyperCube) (hr : r < m.numNodes) :
    (m.ExactlyOnce r (m.cmiSyncBroadcastFn1 r myRank msg) ↔
      m.numNodes ≤ 2 ^ 30 ∧ ∀ size ∈ m.nodeSizes.take r, size = 1) ∧
    (m.ExactlyOnce r (m.cmiSyncNodeBroadcastFn r msg) ↔ m.numNodes ≤ 2 ^ 30) := by
  constructor
  · obtain ⟨hstart, hreceive⟩ := cmiSyncBroadcastFn1_hyperCube myRank msg hscheme hr
    obtain ⟨hle, hiff⟩ := nodeOf_go_self_iff m.nodeSizes m.sizes_pos r hr
    rw [hstart, ← hiff]
    by_cases heq : m.nodeOf r = r
    · rw [heq] at hreceive ⊢
      rw [exactlyOnce_hyperCube_iff hr ⟨myRank, r + 1⟩ ⟨0, r + 1⟩ rfl hreceive]
      exact (and_iff_left heq).symm
    · have hs : m.nodeOf r < m.numNodes := lt_of_le_of_lt hle hr
      constructor
      · intro h
        exact absurd h (not_exactlyOnce_of_start hs heq hr rfl fun nd _ => hreceive nd)
      · rintro ⟨-, h⟩
        exact absurd h heq
  · obtain ⟨hstart, hreceive⟩ := cmiSyncNodeBroadcastFn_hyperCube msg hscheme hr
    rw [hstart]
    exact exactlyOnce_hyperCube_iff hr ⟨msg.destRank, -r - 1⟩ ⟨dgramNodeMessage, -r - 1⟩
      rfl hreceive

/-- Two nodes with the same number of processors. -/
def twoNodes (size : Nat) (hpos : 0 < size) (hlt : size < 2 ^ 30) : Machine where
  nodeSizes := [size, size]
  broadcastSpanningFactor := 4
  scheme := .hyperCube
  smp := true
  nodes_pos := Nat.zero_lt_succ _
  sizes_pos := by
    intro k hk
    have : k = size := by simpa using hk
    omega
  pes_lt := by
    have : [size, size].sum = size + size := by simp
    omega
  factor_pos := by decide
  factor_lt := by decide

/-- From node 1 with one processor on each node. -/
theorem hyperCube_exactlyOnce_two_nodes : (twoNodes 1 (by decide) (by decide)).ExactlyOnce 1
      ((twoNodes 1 (by decide) (by decide)).cmiSyncBroadcastFn1 1 0 ⟨0, 0⟩) :=
  (hyperCube_exactlyOnce_iff (twoNodes 1 (by decide) (by decide)) 1 0 ⟨0, 0⟩ rfl (by decide)).1.2
    (by decide)

/-- From node 1 with two processors on each node: node 0 is taken for the start and gets no copy. -/
theorem hyperCube_misses_node : ¬ (twoNodes 2 (by decide) (by decide)).ExactlyOnce 1
      ((twoNodes 2 (by decide) (by decide)).cmiSyncBroadcastFn1 1 0 ⟨0, 0⟩) := by
  rintro ⟨ps, hps, -, -, hall⟩
  have hsends : (twoNodes 2 (by decide) (by decide)).cmiSyncBroadcastFn1 1 0 ⟨0, 0⟩ = some [] := by
    decide +kernel
  cases hps.symm.trans hsends
  obtain ⟨-, -, -, -, hreached⟩ := hall [] _ Run.nil
  have := hreached rfl 0 (by decide) (by decide)
  cases this

end CharmRuntime.Broadcast.Machine
