import CharmRuntime.Tram.Delivery

/-!
# The routes of the two routers

`SimpleMeshRouter` goes down the dimensions and corrects one index at a time (`carries_simple`);
with `CMK_MULTICORE` a message does not say along which dimension it came, and only items that are
out of place in at most one dimension after the first arrive (`carries_multicore`). With
`NodeAwareMeshRouter` the dimension at which a PE goes on is that of its team, which decreases with
every hop (`carries_nodeAware`).
-/

set_option autoImplicit false

namespace CharmRuntime.Tram

open Lib.MixedRadix List
open Kind (simple nodeAware)

variable (m : Mesh) {pe dest k i x : Nat}

namespace Mesh

theorem numDimensions_pos : 0 < m.numDimensions := length_pos_iff.2 m.nonempty

theorem digit_lt_size (p i : Nat) : digit m.sizes p i < m.individualDimensionSizes i :=
  digit_lt m.pos

section

variable (hpe : pe < m.numMembers)

include hpe

/-- Two PEs with the same location are equal. -/
theorem eq_of_location (hdest : dest < m.numMembers)
    (h : ∀ i < m.numDimensions, digit m.sizes pe i = digit m.sizes dest i) : pe = dest :=
  eq_of_digit_eq m.pos hpe hdest h

/-! ## The loop of `determineRoute` -/

theorem findRoute_none (h : m.findRoute pe dest k = none) :
    ∀ i < k, digit m.sizes pe i = digit m.sizes dest i := by
  induction k with
  | zero => exact fun i hi => absurd hi (Nat.not_lt_zero i)
  | succ k ih =>
    rw [findRoute, routeAlongDimension_eq, m.myLocationIndex_eq hpe] at h
    split at h
    · cases h
    · intro i hi
      rcases Nat.lt_succ_iff_lt_or_eq.1 hi with hlt | rfl
      · exact ih h i hlt
      · exact (not_not.1 ‹¬_ ≠ _›).symm

theorem findRoute_some (h : m.findRoute pe dest k = some (i, x)) :
    i < k ∧ x = digit m.sizes dest i ∧ x ≠ digit m.sizes pe i ∧
      ∀ j, i < j → j < k → digit m.sizes pe j = digit m.sizes dest j := by
  induction k with
  | zero => cases h
  | succ k ih =>
    rw [findRoute, routeAlongDimension_eq, m.myLocationIndex_eq hpe] at h
    split at h
    · cases h
      exact ⟨lt_add_one _, rfl, ‹_›, fun j hij hjk => absurd hjk (by omega)⟩
    · obtain ⟨hik, hx, hne, hmatch⟩ := ih h
      refine ⟨Nat.lt_succ_of_lt hik, hx, hne, fun j hij hjk => ?_⟩
      rcases Nat.lt_succ_iff_lt_or_eq.1 hjk with hlt | rfl
      · exact hmatch j hij hlt
      · exact (not_not.1 ‹¬_ ≠ _›).symm

end

/-- The PE that differs from another one along a dimension only. -/
theorem digit_hop (hx : x < m.individualDimensionSizes i) (j : Nat) :
    digit m.sizes (setDigit m.sizes pe i x) j = if j = i then x else digit m.sizes pe j :=
  digit_setDigit m.pos hx

theorem hop_lt (hx : x < m.individualDimensionSizes i) (hpe : pe < m.numMembers) :
    setDigit m.sizes pe i x < m.numMembers :=
  setDigit_lt m.pos hx hpe

/-- A PE that is not the destination, and agrees with it from dimension `k` on, has a route along a
lower dimension; after that hop the dimensions from this one on agree. -/
theorem findRoute_hop (hpe : pe < m.numMembers) (hdest : dest < m.numMembers) (hne : dest ≠ pe)
    (hmatch : ∀ i, k ≤ i → i < m.numDimensions → digit m.sizes pe i = digit m.sizes dest i) :
    ∃ i < k, m.findRoute pe dest k = some (i, digit m.sizes dest i) ∧
      digit m.sizes pe i ≠ digit m.sizes dest i ∧ ∀ j, i ≤ j → j < m.numDimensions →
        digit m.sizes (setDigit m.sizes pe i (digit m.sizes dest i)) j = digit m.sizes dest j := by
  cases h : m.findRoute pe dest k with
  | none =>
    refine absurd (m.eq_of_location hpe hdest fun i hi => ?_).symm hne
    rcases lt_or_ge i k with hlt | hge
    · exact m.findRoute_none hpe h i hlt
    · exact hmatch i hge hi
  | some r =>
    obtain ⟨i, x⟩ := r
    obtain ⟨hik, rfl, hx, hbetween⟩ := m.findRoute_some hpe h
    refine ⟨i, hik, rfl, hx.symm, fun j hij hj => ?_⟩
    rw [m.digit_hop (m.digit_lt_size dest i)]
    split
    · subst_vars
      rfl
    · rcases lt_or_ge j k with hlt | hge
      · exact hbetween j (by omega) hlt
      · exact hmatch j hge hj

/-! ## `SimpleMeshRouter` -/

end Mesh

section Simple

variable (multicore : Bool) (P : Params)

/-- What is known of an item that arrives in a message of type `t`: the indices from dimension `t`
on are right. -/
def simpleOk (p t dest r : Nat) : Prop :=
  t ≤ r ∧ t ≤ m.numDimensions ∧
    ∀ i, t ≤ i → i < m.numDimensions → digit m.sizes p i = digit m.sizes dest i

/-- With `CMK_MULTICORE` all messages have type 1. -/
def multicoreOk (p t dest r : Nat) : Prop :=
  t = 1 ∧ (p = dest ∨ 1 ≤ r) ∧
    ∀ i, 1 ≤ i → i < m.numDimensions → digit m.sizes p i = digit m.sizes dest i

variable {Ok : Nat → Nat → Nat → Nat → Prop} {r : Nat}

/-- A hop of `SimpleMeshRouter` along a dimension. -/
theorem leads_simple (hpe : pe < m.numMembers) (hi : i < m.numDimensions)
    (hok : Ok (setDigit m.sizes pe i (digit m.sizes dest i))
      ((m.simpleMeshRouter pe multicore).determineMsgType i) dest r) :
    Leads ((simple multicore).config m P) Ok pe dest (r + 1)
    (m.assignRoute pe (i, digit m.sizes dest i)) := by
  refine ⟨hi, m.digit_lt_size dest i, rfl, reaches_of_forward ?_ rfl ?_⟩
  · rw [Mesh.assignRoute, m.nextPeAlongRoute_eq hpe]
    exact m.hop_lt (m.digit_lt_size dest i) hpe
  · rw [Mesh.assignRoute, m.nextPeAlongRoute_eq hpe]
    exact hok

/-- The route of an item for the inserting PE. -/
theorem leads_self (hpe : pe < m.numMembers)
    (hok : Ok pe ((m.simpleMeshRouter pe multicore).determineMsgType 0) pe r) :
    Leads ((simple multicore).config m P) Ok pe pe (r + 1) ⟨0, m.routeAlongDimension pe 0, pe⟩ := by
  refine ⟨m.numDimensions_pos, ?_, ?_, reaches_of_forward hpe rfl hok⟩
  · rw [m.routeAlongDimension_eq]
    exact m.digit_lt_size pe 0
  · exact (m.nextPeAlongRoute_eq hpe).trans (by rw [m.routeAlongDimension_eq, setDigit_digit])

/-- `SimpleMeshRouter` carries all items, with at most one hop along each dimension. -/
theorem carries_simple : Carries ((simple false).config m P) (simpleOk m) (fun _ _ => True)
    m.numDimensions := by
  -- the hop, from a PE on which the indices from `k` on are right
  have hhop : ∀ {pe k dest r : Nat}, pe < m.numMembers → dest < m.numMembers → dest ≠ pe →
    simpleOk m pe k dest r →
      ∃ route, m.determineRoute pe dest k = some route ∧
        Leads ((simple false).config m P) (simpleOk m) pe dest r route := by
    rintro pe k dest r hpe hdest hne ⟨hkr, hk, hmatch⟩
    obtain ⟨i, hik, hroute, -, hafter⟩ := m.findRoute_hop hpe hdest hne hmatch
    obtain ⟨r, rfl⟩ : ∃ r', r = r' + 1 := ⟨r - 1, by omega⟩
    refine ⟨_, by rw [Mesh.determineRoute, hroute]; rfl, ?_⟩
    apply leads_simple m false _ hpe (by omega)
    exact ⟨show i ≤ r by omega, show i ≤ m.numDimensions by omega, hafter⟩
  constructor
  · intro pe dest hpe hdest _
    have hpos := m.numDimensions_pos
    change ∃ route, m.determineInitialRoute pe (m.determineRoute pe) (m.numDimensions - 1) dest =
      some route ∧ _
    rw [Mesh.determineInitialRoute]
    by_cases hself : dest = pe
    · subst hself
      rw [if_pos rfl]
      refine ⟨_, rfl, ?_⟩
      have hok : simpleOk m dest 0 dest (m.numDimensions - 1) :=
        ⟨Nat.zero_le _, Nat.zero_le _, fun _ _ _ => rfl⟩
      have hleads := leads_self m false P hpe hok
      rwa [Nat.sub_add_cancel hpos] at hleads
    · rw [if_neg hself, Nat.sub_add_cancel hpos]
      exact hhop hpe hdest hself ⟨le_rfl, le_rfl, fun i hi hi' => absurd hi' (by omega)⟩
  · intro pe t dest r hpe hdest hne hok
    exact ⟨t, rfl, hhop hpe hdest hne hok⟩

/-- With `CMK_MULTICORE` it carries the items that are out of place along at most one dimension
after the first. -/
theorem carries_multicore : Carries ((simple true).config m P) (multicoreOk m)
    (fun pe dest => ∀ i j, 1 ≤ i → i < j → j < m.numDimensions →
      digit m.sizes pe i = digit m.sizes dest i ∨ digit m.sizes pe j = digit m.sizes dest j)
        m.numDimensions := by
  have hpos := m.numDimensions_pos
  constructor
  · intro pe dest hpe hdest hfrom
    change ∃ route, m.determineInitialRoute pe (m.determineRoute pe) (m.numDimensions - 1) dest =
      some route ∧ _
    rw [Mesh.determineInitialRoute]
    obtain ⟨d, hd⟩ : ∃ d, m.numDimensions = d + 1 := ⟨m.numDimensions - 1, by omega⟩
    by_cases hself : dest = pe
    · subst hself
      rw [if_pos rfl, hd]
      exact ⟨_, rfl, leads_self m true _ hpe ⟨rfl, .inl rfl, fun _ _ _ => rfl⟩⟩
    · -- the first hop corrects the one dimension that is wrong, or the first dimension
      rw [if_neg hself, Nat.sub_add_cancel hpos]
      obtain ⟨i, hi, hroute, hwrong, hafter⟩ :=
        m.findRoute_hop (k := m.numDimensions) hpe hdest hself fun i hi hi' => absurd hi' (by omega)
      refine ⟨_, by rw [Mesh.determineRoute, hroute]; rfl, ?_⟩
      rw [hd]
      apply leads_simple m true _ hpe hi
      refine ⟨rfl, ?_, ?_⟩
      · rcases Nat.eq_zero_or_pos d with hzero | hd'
        · left
          refine m.eq_of_location (m.hop_lt (m.digit_lt_size dest i) hpe) hdest fun j hj => ?_
          exact hafter j (by omega) hj
        · exact .inr hd'
      · intro j hj hj'
        rcases lt_or_ge j i with hlt | hge
        · rw [m.digit_hop (m.digit_lt_size dest i), if_neg (by omega)]
          exact (hfrom j i hj hlt hi).resolve_right hwrong
        · exact hafter j hge hj'
  · rintro pe t dest r hpe hdest hne ⟨rfl, hr, hmatch⟩
    refine ⟨1, rfl, ?_⟩
    obtain ⟨i, hi, hroute, -, hafter⟩ := m.findRoute_hop hpe hdest hne hmatch
    obtain ⟨r, rfl⟩ : ∃ r', r = r' + 1 := ⟨r - 1, by have := hr.resolve_left hne.symm; omega⟩
    refine ⟨_, by change m.determineRoute pe dest 1 = _; rw [Mesh.determineRoute, hroute]; rfl, ?_⟩
    apply leads_simple m true _ hpe (by omega)
    have harr : setDigit m.sizes pe i (digit m.sizes dest i) = dest :=
      m.eq_of_location (m.hop_lt (m.digit_lt_size dest i) hpe) hdest fun j hj =>
        hafter j (by omega) hj
    exact ⟨rfl, .inl harr, fun j _ hj => hafter j (by omega) hj⟩

end Simple

/-! ## `NodeAwareMeshRouter` -/

namespace Mesh.NodeAware

variable {m} (hacc : nodeAware.Accepts m) {dim o : Nat}

include hacc

theorem last_pos : 0 < last m := Nat.sub_pos_of_lt hacc.1

theorem last_add_one : last m + 1 = m.numDimensions := Nat.sub_add_cancel (le_of_lt hacc.1)

theorem teamSize_pos : 0 < teamSize m := Nat.div_pos hacc.2 m.numDimensions_pos

/-- The teams fit into the last dimension. -/
theorem offset_lt (hdim : dim ≤ last m) (ho : o < teamSize m) :
    o + dim * teamSize m < m.individualDimensionSizes (last m) := by
  have hteams : teamSize m * m.numDimensions ≤ m.individualDimensionSizes (last m) :=
    Nat.div_mul_le_self ..
  have hmul : (dim + 1) * teamSize m ≤ m.numDimensions * teamSize m :=
    Nat.mul_le_mul_right _ (by have := last_add_one hacc; omega)
  rw [mul_comm] at hteams
  rw [Nat.succ_mul] at hmul
  omega

omit hacc in
theorem weight_last : weight m.sizes (last m) = 1 := by
  have hlength : m.sizes.length ≤ last m + 1 := by
    simp only [last, numDimensions] at *
    omega
  rw [weight, drop_eq_nil_of_le hlength, prod_nil]

omit hacc in
theorem digit_last_le (p : Nat) : digit m.sizes p (last m) ≤ p := by
  rw [digit, weight_last, Nat.div_one]
  exact Nat.mod_le ..

omit hacc in
/-- A PE of the same node. -/
theorem setDigit_last (p : Nat) : setDigit m.sizes p (last m) x =
    p - digit m.sizes p (last m) + x := by
  have := digit_last_le (m := m) p
  rw [setDigit, weight_last]
  omega

omit hacc in
theorem myAssignedDim_eq (hpe : pe < m.numMembers) :
    myAssignedDim m pe = digit m.sizes pe (last m) / teamSize m := by
  rw [myAssignedDim, m.myLocationIndex_eq hpe]

/-- The team of a PE of the same node. -/
theorem myAssignedDim_hop (hpe : pe < m.numMembers) (hdim : dim ≤ last m) (ho : o < teamSize m) :
    myAssignedDim m (setDigit m.sizes pe (last m) (o + dim * teamSize m)) = dim := by
  have hlt := offset_lt hacc hdim ho
  rw [myAssignedDim_eq (m.hop_lt hlt hpe), m.digit_hop hlt, if_pos rfl,
    Nat.add_mul_div_right _ _ (teamSize_pos hacc), Nat.div_eq_of_lt ho, zero_add]

omit hacc in
theorem dimensionOfArrivingMsgs_of_lt (h : myAssignedDim m pe < last m) :
    dimensionOfArrivingMsgs m pe = myAssignedDim m pe + 1 := by
  rw [dimensionOfArrivingMsgs, if_neg (by omega), if_neg (by omega)]

omit hacc in
theorem dimensionOfArrivingMsgs_of_eq (h : myAssignedDim m pe = last m) :
    dimensionOfArrivingMsgs m pe = 0 := by
  rw [dimensionOfArrivingMsgs, if_neg (by omega), if_pos h]

section

variable (hpe : pe < m.numMembers)

include hpe

omit hacc in
theorem next_forward (h : dim ≠ myAssignedDim m pe) :
    nextPeAlongRoute m pe dim x = setDigit m.sizes pe (last m)
    (pe % teamSize m + dim * teamSize m) := by
  rw [nextPeAlongRoute, if_neg h, forwardingDestinations, m.myLocationIndex_eq hpe,
    setDigit_last, add_assoc]

omit hacc in
/-- Within the team of the last dimension the destination is in the same node. -/
theorem next_last (h : last m = myAssignedDim m pe) (hpos : 0 < last m) :
    nextPeAlongRoute m pe (last m) x = setDigit m.sizes pe (last m) x := by
  rw [nextPeAlongRoute, if_pos h, if_neg (by omega), if_neg (by simp), m.nextPeAlongRoute_eq hpe]

/-- Along its own dimension a PE sends to the team that looks at the dimensions before. -/
theorem next_along (h : dim = myAssignedDim m pe) (hdim : dim < last m)
    (hx : x < m.individualDimensionSizes dim) :
    ∃ q o team, nextPeAlongRoute m pe dim x = setDigit m.sizes q (last m) (o + team * teamSize m) ∧
      q = setDigit m.sizes pe dim x ∧ o < teamSize m ∧ team ≤ last m ∧
      (team = last m ∧ dim = 0 ∨ team + 1 = dim) := by
  have hT := teamSize_pos hacc
  have hown : digit m.sizes (setDigit m.sizes pe dim x) (last m) = digit m.sizes pe (last m) := by
    rw [m.digit_hop hx, if_neg (by omega)]
  have hsplit := Nat.mod_add_div (digit m.sizes pe (last m)) (teamSize m)
  rw [← myAssignedDim_eq hpe, ← h, mul_comm] at hsplit
  have hle := digit_last_le (m := m) (setDigit m.sizes pe dim x)
  refine ⟨_, digit m.sizes pe (last m) % teamSize m, if dim = 0 then last m else dim - 1, ?_, rfl,
    Nat.mod_lt _ hT, ?_, ?_⟩
  · rw [nextPeAlongRoute, if_pos h, m.nextPeAlongRoute_eq hpe, setDigit_last, hown]
    by_cases hzero : dim = 0
    · rw [if_pos hzero, if_pos hzero, show m.numDimensions - 1 = last m from rfl]
      rw [hzero, zero_mul, add_zero] at hsplit
      omega
    · obtain ⟨c, rfl⟩ : ∃ c, dim = c + 1 := ⟨dim - 1, by omega⟩
      rw [if_neg hzero, if_neg hzero, if_pos (by omega), Nat.add_sub_cancel]
      rw [Nat.succ_mul] at hsplit
      omega
  · split <;> omega
  · split <;> omega

end

/-- What is known of an item that arrives on a PE of some team: the indices from the dimension of
arriving messages on are right, but for the last one. -/
def nodeAwareOk (m : Mesh) (p t dest r : Nat) : Prop :=
  t = 1 ∧ myAssignedDim m p ≤ last m ∧ dimensionOfArrivingMsgs m p + 1 ≤ r ∧
    ∀ i, dimensionOfArrivingMsgs m p ≤ i → i < last m → digit m.sizes p i = digit m.sizes dest i

section Leads

variable (P : Params) {dim r : Nat}

section

variable (hpe : pe < m.numMembers)

include hpe

/-- The buffer of a route exists, and is sent to the PE that the route names. -/
theorem leads_assigned (hdim : dim ≤ last m) (hreach : Reaches (nodeAware.config m P)
      (nodeAwareOk m) pe dest r dim (nextPeAlongRoute m pe dim (digit m.sizes dest dim))) :
    Leads (nodeAware.config m P) (nodeAwareOk m) pe dest r
    (assignRoute m pe (dim, digit m.sizes dest dim)) := by
  have hlast := last_add_one hacc
  refine ⟨show dim < m.numDimensions by omega, ?_, ?_, hreach⟩
  · change (if myAssignedDim m pe = dim then digit m.sizes dest dim else 0) <
      if dim = myAssignedDim m pe then m.individualDimensionSizes dim else 1
    by_cases hown : dim = myAssignedDim m pe
    · rw [if_pos hown.symm, if_pos hown]
      exact m.digit_lt_size dest dim
    · rw [if_neg (Ne.symm hown), if_neg hown]
      exact one_pos
  · change nextPeAlongRoute m pe dim (if myAssignedDim m pe = dim then digit m.sizes dest dim
      else 0) =
      nextPeAlongRoute m pe dim (digit m.sizes dest dim)
    split
    · rfl
    · next hother =>
        exact (next_forward hpe (Ne.symm hother)).trans (next_forward hpe (Ne.symm hother)).symm

/-- An item goes to the team `team` of the node of `q`. -/
theorem leads_hop {q team : Nat} (hdim : dim ≤ last m)
    (hpers : isMessagePersonalized m pe dim = false) (hq : q < m.numMembers) (ho : o < teamSize m)
    (hteam : team ≤ last m) (hnext : nextPeAlongRoute m pe dim (digit m.sizes dest dim) =
      setDigit m.sizes q (last m) (o + team * teamSize m))
    (hr : (if team = last m then 0 else team + 1) + 1 ≤ r)
    (hmatch : ∀ i, (if team = last m then 0 else team + 1) ≤ i → i < last m →
      digit m.sizes q i = digit m.sizes dest i) : Leads (nodeAware.config m P)
      (nodeAwareOk m) pe dest (r + 1) (assignRoute m pe (dim, digit m.sizes dest dim)) := by
  have hoffset := offset_lt hacc hteam ho
  have hassigned := myAssignedDim_hop hacc hq hteam ho
  -- the dimension of arriving messages on the PE that the item is sent to
  have harriving : dimensionOfArrivingMsgs m (setDigit m.sizes q (last m) (o + team * teamSize m)) =
      if team = last m then 0 else team + 1 := by
    split
    · exact dimensionOfArrivingMsgs_of_eq (hassigned.trans ‹_›)
    · rw [dimensionOfArrivingMsgs_of_lt (by omega), hassigned]
  refine leads_assigned hacc P hpe hdim (reaches_of_forward ?_ hpers ?_)
  · rw [hnext]
    exact m.hop_lt hoffset hq
  · rw [hnext]
    refine ⟨?_, hassigned.le.trans hteam, harriving ▸ hr, fun i hi hi' => ?_⟩
    · change (!isMessagePersonalized m pe dim).toNat = 1
      rw [hpers]
      rfl
    · rw [m.digit_hop hoffset, if_neg (by omega)]
      exact hmatch i (harriving ▸ hi) hi'

/-- An item for another team's dimension is forwarded within the node. -/
theorem leads_forward (hdim : dim ≤ last m) (hother : dim ≠ myAssignedDim m pe)
    (hr : (if dim = last m then 0 else dim + 1) + 1 ≤ r)
    (hmatch : ∀ i, (if dim = last m then 0 else dim + 1) ≤ i → i < last m →
      digit m.sizes pe i = digit m.sizes dest i) : Leads (nodeAware.config m P)
      (nodeAwareOk m) pe dest (r + 1) (assignRoute m pe (dim, digit m.sizes dest dim)) := by
  refine leads_hop hacc P hpe hdim ?_ hpe (Nat.mod_lt _ (teamSize_pos hacc)) hdim
    (next_forward hpe hother) hr hmatch
  rw [isMessagePersonalized, Bool.and_eq_false_iff, beq_eq_false_iff_ne, beq_eq_false_iff_ne]
  omega

/-- A PE of a team sends along the dimension of the team. -/
theorem leads_along (hdim : dim < last m) (hown : dim = myAssignedDim m pe)
    (hr : dim + 1 ≤ r) (hmatch : ∀ i, dim ≤ i → i < last m →
      digit m.sizes (setDigit m.sizes pe dim (digit m.sizes dest dim)) i = digit m.sizes dest i) :
    Leads (nodeAware.config m P)
      (nodeAwareOk m) pe dest (r + 1) (assignRoute m pe (dim, digit m.sizes dest dim)) := by
  have hx := m.digit_lt_size dest dim
  obtain ⟨q, o, team, hnext, rfl, ho, hteam_le, hteam⟩ := next_along hacc hpe hown hdim hx
  have hd : (if team = last m then 0 else team + 1) = dim := by split <;> omega
  refine leads_hop hacc P hpe hdim.le ?_ (m.hop_lt hx hpe) ho hteam_le hnext (hd.symm ▸ hr)
    (hd.symm ▸ hmatch)
  rw [isMessagePersonalized, Bool.and_eq_false_iff, beq_eq_false_iff_ne]
  exact .inl (by omega)

/-- The team of the last dimension sends to the destination. -/
theorem leads_last (hdest : dest < m.numMembers) (hown : last m = myAssignedDim m pe)
    (hmatch : ∀ i < last m, digit m.sizes pe i = digit m.sizes dest i) :
    Leads (nodeAware.config m P)
      (nodeAwareOk m) pe dest (r + 1) (assignRoute m pe (last m, digit m.sizes dest (last m))) := by
  have hx := m.digit_lt_size dest (last m)
  have hlast := last_add_one hacc
  have hnext : nextPeAlongRoute m pe (last m) (digit m.sizes dest (last m)) = dest := by
    rw [next_last hpe hown (last_pos hacc)]
    refine m.eq_of_location (m.hop_lt hx hpe) hdest fun i hi => ?_
    rw [m.digit_hop hx]
    split
    · subst_vars
      rfl
    · exact hmatch i (by omega)
  have hpers : isMessagePersonalized m pe (last m) = true := by
    rw [isMessagePersonalized, hown]
    simp
  refine leads_assigned hacc P hpe le_rfl ?_
  rw [hnext]
  exact reaches_of_personalized hdest hpers

/-- A route of `NodeAwareMeshRouter`. On arrival, and only then, one hop less is enough: what is
left to do begins with the team's own dimension. -/
theorem leads_nodeAware (hdest : dest < m.numMembers) (hk : k ≤ last m)
    (hmatch : ∀ i, k ≤ i → i < last m → digit m.sizes pe i = digit m.sizes dest i)
    (hr : k + 2 ≤ r ∨ k = dimensionOfArrivingMsgs m pe ∧ myAssignedDim m pe ≤ last m ∧ k + 1 ≤ r) :
    ∃ route, determineRoute m pe dest k = some route ∧ Leads (nodeAware.config m P)
        (nodeAwareOk m) pe dest r route := by
  obtain ⟨r, rfl⟩ : ∃ r', r = r' + 1 := ⟨r - 1, by omega⟩
  cases hfind : m.findRoute pe dest k with
  | some route =>
    obtain ⟨i, x⟩ := route
    obtain ⟨hik, rfl, -, hbetween⟩ := m.findRoute_some hpe hfind
    simp only [determineRoute, hfind]
    have hmatch' : ∀ j, i < j → j < last m → digit m.sizes pe j = digit m.sizes dest j :=
      fun j hij hj =>
      (lt_or_ge j k).elim (hbetween j hij) fun hge => hmatch j hge hj
    by_cases hown : i = myAssignedDim m pe
    · refine ⟨_, rfl, leads_along hacc _ hpe (by omega) hown (by omega) fun j hij hj => ?_⟩
      rw [m.digit_hop (m.digit_lt_size dest i)]
      split
      · subst_vars
        rfl
      · exact hmatch' j (by omega) hj
    · refine ⟨_, rfl, leads_forward hacc _ hpe (by omega) hown ?_ ?_⟩
      · rw [if_neg (by omega)]
        rcases hr with hr | ⟨hk, hle, hr⟩
        · omega
        · -- the dimension is below that of the team, so that the next PE is that of a lower team
          rcases Nat.lt_or_eq_of_le hle with hlt | heq
          · rw [dimensionOfArrivingMsgs_of_lt hlt] at hk
            omega
          · rw [dimensionOfArrivingMsgs_of_eq heq] at hk
            omega
      · rw [if_neg (by omega)]
        exact fun j hij hj => hmatch' j hij hj
  | none =>
    have hall : ∀ i < last m, digit m.sizes pe i = digit m.sizes dest i := fun i hi =>
      (lt_or_ge i k).elim (m.findRoute_none hpe hfind i) fun hge => hmatch i hge hi
    simp only [determineRoute, hfind, m.routeAlongDimension_eq]
    by_cases hown : last m = myAssignedDim m pe
    · exact ⟨_, rfl, leads_last hacc _ hpe hdest hown hall⟩
    · refine ⟨_, rfl, leads_forward hacc _ hpe le_rfl hown ?_ ?_⟩
      · rw [if_pos rfl]
        rcases hr with hr | ⟨hk, hle, hr⟩
        · omega
        · rw [dimensionOfArrivingMsgs_of_lt (by omega)] at hk
          omega
      · exact fun j _ hj => hall j hj

end

/-- `NodeAwareMeshRouter` carries the items that are for other PEs. -/
theorem carries_nodeAware : Carries (nodeAware.config m P)
      (nodeAwareOk m) (fun pe dest => dest ≠ pe) (m.numDimensions + 1) := by
  have hlast := last_add_one hacc
  have hpos := last_pos hacc
  constructor
  · intro pe dest hpe hdest hne
    change ∃ route, m.determineInitialRoute pe (determineRoute m pe) (m.numDimensions - 2) dest =
      some route ∧ _
    rw [Mesh.determineInitialRoute, if_neg hne, show m.numDimensions - 2 + 1 = last m by omega]
    exact leads_nodeAware hacc _ hpe hdest le_rfl (fun i hi hi' => absurd hi' (by omega))
      (.inl (by omega))
  · rintro pe t dest r hpe hdest - ⟨rfl, hteam, hr, hmatch⟩
    refine ⟨dimensionOfArrivingMsgs m pe, rfl, ?_⟩
    refine leads_nodeAware hacc _ hpe hdest ?_ hmatch (.inr ⟨rfl, hteam, hr⟩)
    rcases Nat.lt_or_eq_of_le hteam with hlt | heq
    · rw [dimensionOfArrivingMsgs_of_lt hlt]
      omega
    · rw [dimensionOfArrivingMsgs_of_eq heq]
      exact Nat.zero_le _

end Leads

end Mesh.NodeAware

/-! ## Runs -/

/-- The items that a router carries. -/
def Kind.RoutesFrom (m : Mesh) (pe dest : Nat) : Kind → Prop
  | .simple false => True
  | .simple true => ∀ i j, 1 ≤ i → i < j → j < m.numDimensions →
      m.routeAlongDimension pe i = m.routeAlongDimension dest i ∨
        m.routeAlongDimension pe j = m.routeAlongDimension dest j
  | .nodeAware => dest ≠ pe

/-- The most hops that an item takes. -/
def Kind.maxHops (m : Mesh) : Kind → Nat
  | .simple _ => m.numDimensions
  | .nodeAware => m.numDimensions + 1

/-- What is right about a state: each item that has been inserted is in one place, on the way or on
its destination, after at most `bound` hops; its buffer exists and is sent to the PE that the route
named; messages can be received, items inserted, and buffers flushed; and when nothing is on the way
all items have been delivered. -/
structure Delivers (cfg : Config) (From : Nat → Nat → Prop) (bound : Nat) (s : System) : Prop where
  conserved : s.content cfg = ↑s.inserted
  delivered : ∀ pe, ∀ e ∈ (s.streamers pe).delivered, e.item.destinationPe = pe ∧ e.hops ≤ bound
  flying : ∀ m ∈ s.network, ∀ e ∈ m.entries, m.dest = e.named ∧ e.hops ≤ bound
  buffers : ∀ pe dim idx, ∀ e ∈ (s.streamers pe).dataBuffers dim idx, dim < cfg.numDimensions ∧
    idx < (cfg.router pe).numBuffersPerDimension dim ∧
    (cfg.router pe).nextPeAlongRoute dim idx = e.named
  receive : ∀ m ∈ s.network, m.personalized = false →
    (s.receiveItems cfg m.dest m.msgType m.entries).isSome
  insert : ∀ pe item, pe < cfg.numMembers → item.destinationPe < cfg.numMembers →
    From pe item.destinationPe →
    (s.streamers pe).stagedCompletionStarted = false → (s.insertData cfg pe item).isSome
  flush : ∀ pe, ∃ t, s.flushIfIdle cfg pe = some t ∧ t.buffered cfg pe = 0
  finished : s.network = [] → (∀ pe < cfg.numMembers, s.buffered cfg pe = 0) →
    ∑ pe ∈ Finset.range cfg.numMembers, items (s.streamers pe).delivered = ↑s.inserted

variable {Ok : Nat → Nat → Nat → Nat → Prop} {cfg : Config} {bound : Nat} {s : System}

theorem Routed.delivers {From : Nat → Nat → Prop}
    (hcarr : Carries cfg Ok From bound) (hs : Routed cfg Ok bound 0 s) :
    Delivers cfg From bound s where
  conserved := by rw [hs.total, add_zero]
  delivered := hs.home
  flying m hm e he := ⟨(hs.arrives m hm e he).named, (hs.arrives m hm e he).hops⟩
  buffers pe dim idx e he :=
    ⟨(hs.fits pe dim idx e he).dim_lt, (hs.fits pe dim idx e he).idx_lt,
      (hs.fits pe dim idx e he).named⟩
  receive m hm hforward := by
    obtain ⟨t, ht, -, -⟩ := hs.receive hcarr hm hforward
    rw [ht]
    rfl
  insert pe item hpe hdest hfrom hstarted := by
    obtain ⟨t, ht, -⟩ := hs.insertData hcarr hpe hdest hfrom hstarted
    rw [ht]
    rfl
  flush _ := hs.flushIfIdle
  finished hnetwork hbuf := by
    have htotal := hs.total
    rw [System.content, System.flying, hnetwork, map_nil, sum_nil, add_zero, add_zero] at htotal
    rw [← htotal]
    exact Finset.sum_congr rfl fun pe hpe => by rw [hbuf pe (Finset.mem_range.1 hpe), zero_add]

/-- A step that inserts no item but those that the router carries. -/
def CarriedStep (kind : Kind) (m : Mesh) (cfg : Config) (s : System) (e : System.Event)
    (t : System) : Prop :=
  s.exec cfg e = some t ∧ ∀ pe item, e = .insert pe item → kind.RoutesFrom m pe item.destinationPe

theorem routed_of_run {kind : Kind} {m : Mesh}
    (hcarr : Carries cfg Ok (kind.RoutesFrom m · ·) bound) {es : List System.Event}
    (hrun : Lib.Run (CarriedStep kind m cfg) System.init es s) : Routed cfg Ok bound 0 s :=
  hrun.invariant Routed.init fun _ _ _ hs hstep => hs.exec hcarr hstep.2 hstep.1

/-- In every run over a mesh, with any buffer sizes and with or without staged completion, all items
are delivered. -/
theorem items_delivered (kind : Kind) (m : Mesh) (haccepts : kind.Accepts m) (P : Params)
    {es : List System.Event} {s : System}
    (hrun : Lib.Run (CarriedStep kind m (kind.config m P)) System.init es s) :
    Delivers (kind.config m P)
      (kind.RoutesFrom m · ·) (kind.maxHops m) s := by
  match kind with
  | .simple false =>
    have hcarries := carries_simple m P
    exact (routed_of_run hcarries hrun).delivers hcarries
  | .simple true =>
    have hcarries := carries_multicore m P
    simp only [← m.routeAlongDimension_eq] at hcarries
    exact (routed_of_run hcarries hrun).delivers hcarries
  | .nodeAware =>
    have hcarries := Mesh.NodeAware.carries_nodeAware haccepts P
    exact (routed_of_run hcarries hrun).delivers hcarries

/-- On a mesh of 2 and 2, PE 3 gets an item of PE 0 by way of PE 1, and one of PE 2. -/
theorem items_delivered_two_hops : ∃ s,
    Lib.Run (CarriedStep (simple false) (.ofSucc 1 [1])
        ((simple false).config (.ofSucc 1 [1]) ⟨1, 1, false, fun _ => 0⟩)) System.init
      [.insert 0 ⟨0, 3⟩, .insert 2 ⟨1, 3⟩, .receive ⟨0, 1, false, 1, -1, [⟨⟨0, 3⟩, 1, 1⟩]⟩,
        .receive ⟨2, 3, false, 1, -1, [⟨⟨1, 3⟩, 1, 3⟩]⟩,
        .receive ⟨1, 3, false, 0, -1, [⟨⟨0, 3⟩, 2, 3⟩]⟩] s ∧
      (s.streamers 3).delivered = [⟨⟨1, 3⟩, 1, 3⟩, ⟨⟨0, 3⟩, 2, 3⟩] ∧
      Delivers ((simple false).config (.ofSucc 1 [1]) ⟨1, 1, false, fun _ => 0⟩)
        ((simple false).RoutesFrom (.ofSucc 1 [1]) · ·)
        ((simple false).maxHops (.ofSucc 1 [1])) s := by
  have hrun : Lib.Run (CarriedStep (simple false) (.ofSucc 1 [1])
        ((simple false).config (.ofSucc 1 [1]) ⟨1, 1, false, fun _ => 0⟩)) System.init
      [.insert 0 ⟨0, 3⟩, .insert 2 ⟨1, 3⟩, .receive ⟨0, 1, false, 1, -1, [⟨⟨0, 3⟩, 1, 1⟩]⟩,
        .receive ⟨2, 3, false, 1, -1, [⟨⟨1, 3⟩, 1, 3⟩]⟩,
        .receive ⟨1, 3, false, 0, -1, [⟨⟨0, 3⟩, 2, 3⟩]⟩] _ :=
    .cons ⟨rfl, fun _ _ _ => trivial⟩ <| .cons ⟨rfl, fun _ _ _ => trivial⟩ <|
      .cons ⟨rfl, nofun⟩ <| .cons ⟨rfl, nofun⟩ <| .cons ⟨rfl, nofun⟩ .nil
  exact ⟨_, hrun, rfl, items_delivered (simple false) _ trivial _ hrun⟩

/-- With `CMK_MULTICORE`, on a mesh of 1, 2 and 2, an item from PE 0 to PE 3 cannot be routed on
from PE 1. With `NodeAwareMeshRouter`, on a mesh of 1 and 2, an item of PE 0 for itself is in a
buffer that is sent to PE 1. -/
theorem route_lost :
    (∃ es s, Lib.Run (fun s e t =>
      System.exec ((simple true).config (.ofSucc 0 [1, 1]) ⟨1, 0, false, fun _ => 0⟩) s e =
        some t) System.init es s ∧ ∃ m ∈ s.network, m.dest = 1 ∧ m.entries.map (·.item) = [⟨0, 3⟩] ∧
        s.receiveItems ((simple true).config (.ofSucc 0 [1, 1]) ⟨1, 0, false, fun _ => 0⟩) m.dest
          m.msgType m.entries =
          none) ∧
    ∃ es s, Lib.Run
    (fun s e t => System.exec (nodeAware.config (.ofSucc 0 [1]) ⟨2, 0, false, fun _ => 0⟩) s e =
        some t) System.init es s ∧ (s.streamers 0).dataBuffers 0 0 = [⟨⟨0, 0⟩, 0, 0⟩] ∧
      (nodeAware.router (.ofSucc 0 [1]) 0).nextPeAlongRoute 0 0 = 1 := by
  constructor
  · refine ⟨[.insert 0 ⟨0, 3⟩], _, .of_foldlM rfl, ⟨0, 1, false, 1, -1, [⟨⟨0, 3⟩, 1, 1⟩]⟩, ?_,
      rfl, rfl, rfl⟩
    exact mem_singleton.2 rfl
  · exact ⟨[.insert 0 ⟨0, 0⟩], _, .of_foldlM rfl, rfl, rfl⟩

end CharmRuntime.Tram
