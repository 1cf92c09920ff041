import CharmRuntime.ArrayBroadcast.Hosts
import Mathlib.Data.List.Perm.Subperm

/-!
# Each broadcast once and in order

When broadcasts are delivered at once and not through the scheduler, an element has received the
broadcasts from the one after its creation up to its own number, in order, as long as two things do
not happen. An element that leaves during `recvBroadcast`, other than the last one, makes the loop
read past the end of `localElemVec`. And an element that leaves during `bringUpToDate` before its
last broadcast leaves the queue of old broadcasts rotated, so that other elements are given wrong
ones later (`catch_up_rotated`).

In all runs in which entry methods keep to this, nothing is lost, repeated or reordered
(`broadcasts_once_in_order`).
-/

set_option autoImplicit false

namespace CharmRuntime.ArrayBroadcast

open Lib Function List Option
open Host (depart deliver)

/-! ## Elements of a host -/

/-- An element receives a broadcast. -/
def Element.receive (msg : Nat) (el : Element) : Element :=
  { el with bcastNo := el.bcastNo + 1, received := el.received ++ [msg] }

@[simp]
theorem Element.receive_id (msg : Nat) (el : Element) : (el.receive msg).id = el.id := rfl

/-- An element does not leave a PE. -/
def Fate.StaysAt (pe : Nat) (fate : Fate) : Prop := fate = .stays ∨ fate = .leaves pe

section Host

variable {h : Host} {pre post : List Element} {el : Element} {pe msg : Nat} {fate : Fate}

section Local

variable (hvec : h.localElemVec = pre ++ el :: post) (hnodup : h.ids.Nodup)

include hvec hnodup

/-- The other elements have other identifiers. -/
theorem ids_ne : (∀ x ∈ pre, x.id ≠ el.id) ∧ ∀ x ∈ post, x.id ≠ el.id := by
  rw [Host.ids, hvec, map_append, map_cons] at hnodup
  refine ⟨fun x hx heq => ?_, fun x hx heq => ?_⟩
  · exact disjoint_of_nodup_append hnodup (List.mem_map_of_mem hx) (heq ▸ mem_cons_self)
  · exact (nodup_cons.1 (nodup_append.1 hnodup).2.1).1 (heq ▸ List.mem_map_of_mem hx)

theorem getElt_eq : h.getElt el.id = some el := by
  have hpre := (ids_ne hvec hnodup).1
  rw [Host.getElt, hvec, find?_append, find?_eq_none.2 fun x hx => ?_, none_or]
  · simp
  · simpa using hpre x hx

theorem modify_eq (f : Element → Element) :
    h.modify el.id f = { h with localElemVec := pre ++ f el :: post } := by
  obtain ⟨hpre, hpost⟩ := ids_ne hvec hnodup
  have hkeep : ∀ {l : List Element}, (∀ x ∈ l, x.id ≠ el.id) →
      (l.map fun x => if x.id = el.id then f x else x) = l := fun hl =>
    (map_congr_left fun x hx => if_neg (hl x hx)).trans (List.map_id' _)
  rw [Host.modify, hvec, map_append, map_cons, hkeep hpre, hkeep hpost, if_pos rfl]

/-- Another element with the same identifier takes the place of an element. -/
theorem nodup_ids {el' : Element} (h' : Host) (hvec' : h'.localElemVec = pre ++ el' :: post)
    (hid : el'.id = el.id) : h'.ids.Nodup := by
  rw [Host.ids, hvec] at hnodup
  simpa [Host.ids, hvec', hid] using hnodup

/-- The others are still there. -/
theorem perm_deleteElt : (h.deleteElt el.id).localElemVec.Perm (pre ++ post) := by
  have hfind : h.localElemVec.findIdx? (·.id = el.id) = some pre.length := by
    have hnone : pre.findIdx? (fun x => decide (x.id = el.id)) = none :=
      findIdx?_eq_none_iff.2 fun x hx => by simpa using (ids_ne hvec hnodup).1 x hx
    rw [hvec, findIdx?_append, hnone, findIdx?_cons]
    simp
  rw [Host.deleteElt, hfind]
  rcases eq_nil_or_concat' post with rfl | ⟨post', last, rfl⟩
  · have hlast : h.localElemVec.getLast? = some el := by rw [hvec, getLast?_concat]
    rw [hlast]
    dsimp only
    rw [hvec, if_neg (by simp), dropLast_concat, append_nil]
  · -- The last element takes the place of the one that is deleted.
    have hlast : h.localElemVec.getLast? = some last := by
      rw [hvec, ← cons_append, ← append_assoc, getLast?_concat]
    rw [hlast]
    dsimp only
    rw [hvec, if_pos (by simp), set_append_right _ _ le_rfl, Nat.sub_self, set_cons_zero,
      ← cons_append, ← append_assoc, dropLast_concat]
    exact (perm_append_singleton last post').symm.append_left pre

/-- A call that is over for one element: it is still there, or it is not, and then it may have been
sent away. -/
theorem subperm_depart :
    ((h.depart pe el.id fate).host.localElemVec ++
      (h.depart pe el.id fate).left.map Prod.snd).Subperm
      (pre ++ el :: post) := by
  have hdelete : (el :: (h.deleteElt el.id).localElemVec).Perm (pre ++ el :: post) :=
    ((perm_deleteElt hvec hnodup).cons el).trans perm_middle.symm
  cases fate with
  | stays =>
    rw [depart, map_nil, append_nil, hvec]
  | dies =>
    rw [depart, map_nil, append_nil]
    exact ((sublist_cons_self el _).subperm).trans hdelete.subperm
  | leaves dest =>
    rw [depart]
    split
    · rw [map_nil, append_nil, hvec]
    · rw [getElt_eq hvec hnodup]
      exact ((perm_append_singleton el _).trans hdelete).subperm

end Local

theorem depart_host_bcastNo (id : Nat) : (h.depart pe id fate).host.bcastNo = h.bcastNo ∧
    (h.depart pe id fate).host.oldBcasts = h.oldBcasts := by
  have hdelete : (h.deleteElt id).bcastNo = h.bcastNo ∧
      (h.deleteElt id).oldBcasts = h.oldBcasts := by
    rw [Host.deleteElt]
    split <;> exact ⟨rfl, rfl⟩
  cases fate with
  | stays => exact ⟨rfl, rfl⟩
  | dies => exact hdelete
  | leaves dest =>
    rw [depart]
    split
    · exact ⟨rfl, rfl⟩
    · exact hdelete

theorem depart_of_staysAt (id : Nat) (hstays : fate.StaysAt pe) :
    h.depart pe id fate = ⟨h, [], [], true⟩ := by
  rcases hstays with rfl | rfl
  · rfl
  · rw [depart, if_pos rfl]

theorem depart_queued (id : Nat) : (h.depart pe id fate).queued = [] := by
  cases fate with
  | stays => rfl
  | dies => rfl
  | leaves dest =>
    rw [depart]
    split <;> rfl

theorem depart_stayed (id : Nat) (hstays : ¬fate.StaysAt pe) :
    (h.depart pe id fate).stayed = false := by
  cases fate with
  | stays => exact absurd (.inl rfl) hstays
  | dies => rfl
  | leaves dest =>
    rw [depart, if_neg fun heq => hstays (.inr (by rw [heq]))]

/-- A broadcast that an element has not received is delivered to it. -/
theorem deliver_eq (hvec : h.localElemVec = pre ++ el :: post) (hnodup : h.ids.Nodup)
    (hlt : el.bcastNo < h.bcastNo) : h.deliver false pe msg el fate =
      { h with localElemVec := pre ++ el.receive msg :: post }.depart pe el.id fate := by
  have hmodify := modify_eq hvec hnodup fun el => { el with bcastNo := el.bcastNo + 1 }
  have hnodup' := nodup_ids hvec hnodup
    { h with localElemVec := pre ++ { el with bcastNo := el.bcastNo + 1 } :: post } rfl rfl
  rw [deliver, if_neg (not_le.2 hlt), hmodify]
  exact congrArg (depart · pe el.id fate)
    (modify_eq rfl hnodup' fun el => { el with received := el.received ++ [msg] })

end Host

/-! ## The loops -/

section Loops

variable {h : Host} {pe msg : Nat} {fates : Nat → Fate} {pre post : List Element} {el : Element}

/-- An element after a broadcast that was meant for the elements that have received `bcastNo - 1`
ones. -/
def Element.advance (bcastNo msg : Nat) (el : Element) : Element :=
  if bcastNo ≤ el.bcastNo then el else el.receive msg

/-- The loop of `recvBroadcast`, when only the last element may leave. -/
theorem deliverAll_spec (hvec : h.localElemVec = pre ++ post) (hnodup : h.ids.Nodup)
    (hstay : ∀ el ∈ post.dropLast, h.bcastNo ≤ el.bcastNo ∨ (fates el.id).StaysAt pe) :
    ∃ o, deliverAll false pe fates msg post.length pre.length h = some o ∧
      o.host.bcastNo = h.bcastNo ∧ o.host.oldBcasts = h.oldBcasts ∧ o.queued = [] ∧
      (o.host.localElemVec ++ o.left.map Prod.snd).Subperm
        (pre ++ post.map (Element.advance h.bcastNo msg)) := by
  induction post generalizing h pre with
  | nil =>
    refine ⟨_, rfl, rfl, rfl, rfl, ?_⟩
    rw [map_nil, map_nil, append_nil, append_nil, hvec, append_nil]
  | cons el post ih =>
    have hget : h.localElemVec[pre.length]? = some el := by simp [hvec]
    rw [length_cons, deliverAll, hget, bind_some, map_cons, append_cons, Element.advance]
    dsimp only
    have hrest : ∀ x ∈ post.dropLast, h.bcastNo ≤ x.bcastNo ∨ (fates x.id).StaysAt pe :=
      fun x hx => by
      refine hstay x ?_
      cases post with
      | nil => exact absurd hx not_mem_nil
      | cons y post => exact mem_cons_of_mem el hx
    by_cases hskip : h.bcastNo ≤ el.bcastNo
    · obtain ⟨o, ho, hno, hold, hqueued, hsub⟩ :=
        @ih h (pre ++ [el]) (by rw [hvec, append_cons]) hnodup hrest
      rw [length_append, length_singleton] at ho
      rw [deliver, if_pos hskip, ho, if_pos hskip]
      exact ⟨_, rfl, hno, hold, hqueued, hsub⟩
    · rw [deliver_eq hvec hnodup (not_le.1 hskip), if_neg hskip]
      have hnodup' :=
        nodup_ids hvec hnodup { h with localElemVec := pre ++ el.receive msg :: post } rfl rfl
      by_cases hstays : (fates el.id).StaysAt pe
      · obtain ⟨o, ho, hno, hold, hqueued, hsub⟩ :=
          @ih { h with localElemVec := pre ++ el.receive msg :: post } (pre ++ [el.receive msg])
            (append_cons _ _ _) hnodup' hrest
        rw [length_append, length_singleton] at ho
        rw [depart_of_staysAt el.id hstays, ho]
        exact ⟨_, rfl, hno, hold, hqueued, hsub⟩
      · -- Only the last element may leave, so that the loop is over.
        have hpost : post = [] := by
          cases post with
          | nil => rfl
          | cons y post => exact absurd ((hstay el mem_cons_self).resolve_left hskip) hstays
        subst hpost
        have hbcast := @depart_host_bcastNo { h with localElemVec := pre ++ [el.receive msg] } pe
          (fates el.id) el.id
        have hsub := @subperm_depart { h with localElemVec := pre ++ [el.receive msg] } pre []
          (el.receive msg)
          pe (fates el.id) rfl hnodup'
        refine ⟨_, rfl, hbcast.1, hbcast.2, ?_, ?_⟩
        · rw [Outcome.append, depart_queued]
          rfl
        · simpa [Outcome.append] using hsub

/-- An element after it has received all broadcasts up to a number. -/
def Element.catchUp (bcastNo : Nat) (el : Element) : Element :=
  { el with
    bcastNo := bcastNo
    received := el.received ++ range' (el.bcastNo + 1) (bcastNo - el.bcastNo) }

theorem Element.catchUp_self (el : Element) : el.catchUp el.bcastNo = el := by
  rw [Element.catchUp, Nat.sub_self, range'_zero, append_nil]

theorem Element.catchUp_receive {bcastNo : Nat} (h : el.bcastNo < bcastNo) :
    (el.receive (el.bcastNo + 1)).catchUp bcastNo = el.catchUp bcastNo := by
  obtain ⟨k, rfl⟩ : ∃ k, bcastNo = el.bcastNo + 1 + k := ⟨bcastNo - (el.bcastNo + 1), by omega⟩
  have hk : el.bcastNo + 1 + k - el.bcastNo = k + 1 := by omega
  rw [Element.catchUp, Element.catchUp, Element.receive, hk, range'_succ, append_assoc]
  simp

/-- The second loop of `bringUpToDate`, when the element leaves at its last broadcast if at all. `k`
broadcasts are to be delivered, and those at the front of the queue are the right ones. -/
theorem deliverOld_spec (k : Nat)
    (hvec : h.localElemVec = pre ++ el :: post) (hnodup : h.ids.Nodup)
    (hk : el.bcastNo + k = h.bcastNo)
    (hold : h.oldBcasts = range' (el.bcastNo + 1) k ++ range' 1 el.bcastNo)
    (hstay : ∀ m, el.bcastNo < m → m < h.bcastNo → (fates m).StaysAt pe) :
    ∃ o, deliverOld false pe fates el.id k h = some o ∧
      o.host.bcastNo = h.bcastNo ∧ o.host.oldBcasts = range' 1 h.bcastNo ∧ o.queued = [] ∧
      (o.host.localElemVec ++ o.left.map Prod.snd).Subperm
      (pre ++ el.catchUp h.bcastNo :: post) := by
  induction k generalizing h el with
  | zero =>
    refine ⟨_, rfl, rfl, ?_, rfl, ?_⟩
    · rw [hold, ← hk]
      rfl
    · rw [← hk, Nat.add_zero, Element.catchUp_self, map_nil, append_nil, hvec]
  | succ k ih =>
    rw [range'_succ, cons_append] at hold
    rw [deliverOld, hold]
    dsimp only
    rw [getElt_eq hvec hnodup, bind_some,
      @deliver_eq { h with oldBcasts := range' (el.bcastNo + 1 + 1) k ++ range' 1 el.bcastNo ++
        [el.bcastNo + 1] } pre post el pe (el.bcastNo + 1) (fates (el.bcastNo + 1)) hvec hnodup
        (by dsimp only; omega)]
    have hqueue : range' (el.bcastNo + 1 + 1) k ++ range' 1 el.bcastNo ++ [el.bcastNo + 1] =
        range' (el.bcastNo + 1 + 1) k ++ range' 1 (el.bcastNo + 1) := by
      rw [append_assoc, range'_1_concat, Nat.add_comm 1]
    rw [hqueue]
    have hnodup' := nodup_ids hvec hnodup { h with
      oldBcasts := range' (el.bcastNo + 1 + 1) k ++ range' 1 (el.bcastNo + 1)
      localElemVec := pre ++ el.receive (el.bcastNo + 1) :: post } rfl rfl
    by_cases hstays : (fates (el.bcastNo + 1)).StaysAt pe
    · rw [depart_of_staysAt el.id hstays, if_pos rfl]
      obtain ⟨o, ho, hno, hbcasts, hqueued, hsub⟩ := @ih
        { h with
          oldBcasts := range' (el.bcastNo + 1 + 1) k ++ range' 1 (el.bcastNo + 1)
          localElemVec := pre ++ el.receive (el.bcastNo + 1) :: post }
        (el.receive (el.bcastNo + 1)) rfl hnodup' (by simp only [Element.receive]; omega) rfl
        fun m hm hm' => hstay m (Nat.lt_of_succ_lt hm) hm'
      rw [Element.catchUp_receive (by dsimp only; omega)] at hsub
      rw [Element.receive_id] at ho
      rw [ho, map_some]
      exact ⟨_, rfl, hno, hbcasts, hqueued, hsub⟩
    · -- The element leaves with the last broadcast, when the queue is in order again.
      rw [depart_stayed el.id hstays, if_neg Bool.false_ne_true]
      obtain rfl : k = 0 := by
        by_contra hne
        exact hstays (hstay _ (Nat.lt_succ_self _) (by omega))
      obtain ⟨hno, hbcasts⟩ := @depart_host_bcastNo
        { h with
          oldBcasts := range' (el.bcastNo + 1 + 1) 0 ++ range' 1 (el.bcastNo + 1)
          localElemVec := pre ++ el.receive (el.bcastNo + 1) :: post } pe
            (fates (el.bcastNo + 1)) el.id
      have hcatch : el.receive (el.bcastNo + 1) = el.catchUp h.bcastNo := by
        rw [← hk, ← Element.catchUp_receive (by omega)]
        exact (Element.catchUp_self _).symm
      refine ⟨_, rfl, hno, ?_, depart_queued el.id, ?_⟩
      · rw [hbcasts, ← hk]
        rfl
      · rw [← hcatch]
        exact subperm_depart rfl hnodup'

/-- `bringUpToDate`, for an element that has just been put at the end. -/
theorem bringUpToDate_spec (hnodup : (h.putElt el).ids.Nodup)
    (hold : h.oldBcasts = range' 1 h.bcastNo)
    (hstay : ∀ m, el.bcastNo < m → m < h.bcastNo → (fates m).StaysAt pe) :
    ∃ o, bringUpToDate false pe fates el.id (h.putElt el) = some o ∧
      o.host.bcastNo = h.bcastNo ∧ o.host.oldBcasts = range' 1 h.bcastNo ∧ o.queued = [] ∧
      (o.host.localElemVec ++ o.left.map Prod.snd).Subperm
        (h.localElemVec ++ [el.catchUp (max h.bcastNo el.bcastNo)]) := by
  have hget : (h.putElt el).getElt el.id = some el := getElt_eq rfl hnodup
  rw [bringUpToDate, hget, bind_some]
  by_cases hlt : el.bcastNo < h.bcastNo
  · rw [if_pos (show el.bcastNo < (h.putElt el).bcastNo from hlt), max_eq_left hlt.le]
    refine deliverOld_spec (h.bcastNo - el.bcastNo) rfl hnodup (Nat.add_sub_cancel' hlt.le) ?_ hstay
    -- The rotation brings the broadcasts that the element lacks to the front.
    have hlen : h.oldBcasts.length - (h.bcastNo - el.bcastNo) = el.bcastNo := by
      rw [hold, length_range']
      omega
    have hsplit : range' 1 h.bcastNo =
        range' 1 el.bcastNo ++ range' (el.bcastNo + 1) (h.bcastNo - el.bcastNo) := by
      rw [Nat.add_comm el.bcastNo 1, range'_append_1, Nat.add_sub_cancel' hlt.le]
    have hrotate := rotate_append_length_eq (range' 1 el.bcastNo)
      (range' (el.bcastNo + 1) (h.bcastNo - el.bcastNo))
    rw [length_range', ← hsplit, ← hold] at hrotate
    exact (congrArg h.oldBcasts.rotate hlen).trans hrotate
  · rw [if_neg (show ¬el.bcastNo < (h.putElt el).bcastNo from hlt), max_eq_right (not_lt.1 hlt),
      Element.catchUp_self]
    refine ⟨_, rfl, rfl, hold, rfl, ?_⟩
    rw [map_nil, append_nil]
    exact Subperm.refl _

end Loops

/-! ## All PEs -/

/-- The broadcasts that an element has received are those from its creation up to its number, in
order. -/
structure Element.Track (issued : Nat) (el : Element) : Prop where
  stamp : el.stamp ≤ el.bcastNo
  bcastNo : el.bcastNo ≤ issued
  received : el.received = range' (el.stamp + 1) (el.bcastNo - el.stamp)

/-- The old broadcasts are in order, and the elements are not behind. -/
structure Host.Fresh (issued : Nat) (h : Host) : Prop where
  bcastNo : h.bcastNo ≤ issued
  oldBcasts : h.oldBcasts = range' 1 h.bcastNo
  track : ∀ el ∈ h.localElemVec, el.Track issued ∧ h.bcastNo ≤ el.bcastNo

/-- The identifiers of the elements that are under way. -/
def flyingIds (flying : List (Nat × Element)) : List Nat := flying.map fun f => f.2.id

/-- Each element is in one place. -/
structure System.Unique (s : System) : Prop where
  nodup : ∀ pe, ((s.hosts pe).ids ++ flyingIds s.flying).Nodup
  disjoint : ∀ pe pe', pe ≠ pe' → (s.hosts pe).ids.Disjoint (s.hosts pe').ids
  used : ∀ pe, (s.hosts pe).ids ++ flyingIds s.flying ⊆ s.used

/-- What holds in all states of the runs below. -/
structure System.Good (s : System) : Prop where
  direct : s.viaScheduler = false
  queued : s.queued = []
  unique : s.Unique
  fresh : ∀ pe, (s.hosts pe).Fresh s.issued
  flying : ∀ f ∈ s.flying, f.2.Track s.issued

section Elements

variable {issued bcastNo : Nat} {el : Element}

theorem Element.Track.mono {issued' : Nat} (h : el.Track issued) (hle : issued ≤ issued') :
    el.Track issued' :=
  ⟨h.stamp, h.bcastNo.trans hle, h.received⟩

theorem Element.Track.catchUp (h : el.Track issued) (hle : el.bcastNo ≤ bcastNo)
    (hbcast : bcastNo ≤ issued) : (el.catchUp bcastNo).Track issued := by
  refine ⟨h.stamp.trans hle, hbcast, ?_⟩
  have hstamp := h.stamp
  have hfrom : el.bcastNo + 1 = el.stamp + 1 + (el.bcastNo - el.stamp) := by omega
  have hcount : el.bcastNo - el.stamp + (bcastNo - el.bcastNo) = bcastNo - el.stamp := by omega
  change el.received ++ range' (el.bcastNo + 1) (bcastNo - el.bcastNo) =
    range' (el.stamp + 1) (bcastNo - el.stamp)
  rw [h.received, hfrom, range'_append_1, hcount]

theorem Element.receive_eq_catchUp (el : Element) :
    el.receive (el.bcastNo + 1) = el.catchUp (el.bcastNo + 1) := by
  rw [← Element.catchUp_receive (Nat.lt_succ_self _)]
  exact (Element.catchUp_self _).symm

/-- An element that is not behind is not behind after the next broadcast. -/
theorem Element.Track.advance (h : el.Track issued) (hle : bcastNo ≤ el.bcastNo)
    (hlt : bcastNo < issued) : (el.advance (bcastNo + 1) (bcastNo + 1)).Track issued ∧
      bcastNo + 1 ≤ (el.advance (bcastNo + 1) (bcastNo + 1)).bcastNo := by
  rw [Element.advance]
  split
  case isTrue hskip => exact ⟨h, hskip⟩
  case isFalse hskip =>
    obtain rfl : el.bcastNo = bcastNo := by omega
    rw [Element.receive_eq_catchUp]
    exact ⟨h.catchUp (Nat.le_succ _) hlt, le_rfl⟩

end Elements

section Put

theorem nodup_of_subperm {l l' : List Nat} (hsub : l.Subperm l') (hnodup : l'.Nodup) : l.Nodup := by
  obtain ⟨m, hperm, hm⟩ := hsub
  exact hperm.nodup (hnodup.sublist hm)

theorem subperm_ids {l l' : List Element} (hsub : l.Subperm l') :
    (l.map Element.id).Subperm (l'.map Element.id) := by
  obtain ⟨m, hperm, hm⟩ := hsub
  exact ⟨m.map Element.id, hperm.map _, hm.map _⟩

variable {s : System} {pe : Nat} {o : Outcome}

/-- An element of a PE or one that is under way is on no other PE. -/
theorem System.Unique.far {pe' id : Nat} (huniq : s.Unique) (hne : pe' ≠ pe)
    (hid : id ∈ (s.hosts pe).ids ++ flyingIds s.flying) : id ∉ (s.hosts pe').ids := by
  rcases mem_append.1 hid with hid | hid
  · exact huniq.disjoint pe pe' hne.symm hid
  · exact fun hid' => (nodup_append'.1 (huniq.nodup pe')).2.2 hid' hid

/-- One PE changes, and its elements and those under way are on no other. -/
theorem System.Unique.change {s' : System} (huniq : s.Unique)
    (hother : ∀ pe' ≠ pe, s'.hosts pe' = s.hosts pe')
    (hnodup : ((s'.hosts pe).ids ++ flyingIds s'.flying).Nodup)
    (hfar : ∀ pe' ≠ pe, ∀ id ∈ (s'.hosts pe).ids ++ flyingIds s'.flying, id ∉ (s.hosts pe').ids)
    (hused : (s'.hosts pe).ids ++ flyingIds s'.flying ⊆ s'.used) (hmono : s.used ⊆ s'.used) :
    s'.Unique := by
  refine ⟨fun pe' => ?_, fun pe' pe'' hne => ?_, fun pe' => ?_⟩
  · by_cases heq : pe' = pe
    · exact heq ▸ hnodup
    · rw [hother pe' heq]
      exact nodup_append'.2 ⟨(nodup_append'.1 (huniq.nodup pe')).1, (nodup_append'.1 hnodup).2.1,
        fun id hid hid' => hfar pe' heq id (mem_append_right _ hid') hid⟩
  · by_cases heq : pe' = pe
    · subst heq
      rw [hother pe'' hne.symm]
      exact fun id hid => hfar pe'' hne.symm id (mem_append_left _ hid)
    · rw [hother pe' heq]
      by_cases heq' : pe'' = pe
      · subst heq'
        exact fun id hid hid' => hfar pe' hne id (mem_append_left _ hid') hid
      · rw [hother pe'' heq']
        exact huniq.disjoint pe' pe'' hne
  · by_cases heq : pe' = pe
    · exact heq ▸ hused
    · rw [hother pe' heq]
      exact append_subset.2 ⟨fun id hid => hmono (huniq.used pe' (mem_append_left _ hid)),
        fun id hid => hused (mem_append_right _ hid)⟩

/-- A call that only keeps, destroys or sends away elements of its PE leaves each element in one
place. -/
theorem System.Unique.put (huniq : s.Unique)
    (hsub : (o.host.ids ++ flyingIds o.left).Subperm (s.hosts pe).ids) : (s.put pe o).Unique := by
  have hsub' : (((s.put pe o).hosts pe).ids ++ flyingIds (s.put pe o).flying).Subperm
      ((s.hosts pe).ids ++ flyingIds s.flying) := by
    have hself : (s.put pe o).hosts pe = o.host := update_self _ _ _
    have hflying : flyingIds (s.put pe o).flying = flyingIds s.flying ++ flyingIds o.left :=
      map_append
    rw [hself, hflying]
    refine Subperm.trans (Perm.subperm ?_) ((subperm_append_right (flyingIds s.flying)).2 hsub)
    rw [append_assoc]
    exact perm_append_comm.append_left _
  exact huniq.change (fun pe' hne => update_of_ne hne _ _) (nodup_of_subperm hsub' (huniq.nodup pe))
    (fun pe' hne id hid => huniq.far hne (hsub'.subset hid))
      (fun id hid => huniq.used pe (hsub'.subset hid))
    (Subset.refl _)

/-- A call whose elements are all as they should be, and that leaves the old broadcasts in order. -/
theorem good_put {l : List Element} (hdirect : s.viaScheduler = false)
    (hqueued : s.queued = [] ∧ o.queued = []) (huniq : s.Unique)
    (hfresh : ∀ pe' ≠ pe, (s.hosts pe').Fresh s.issued)
    (hflying : ∀ f ∈ s.flying, f.2.Track s.issued) (hids : l.map Element.id = (s.hosts pe).ids)
    (hsub : (o.host.localElemVec ++ o.left.map Prod.snd).Subperm l)
    (hbcast : o.host.bcastNo ≤ s.issued) (hold : o.host.oldBcasts = range' 1 o.host.bcastNo)
    (hl : ∀ el ∈ l, el.Track s.issued ∧ o.host.bcastNo ≤ el.bcastNo) : (s.put pe o).Good := by
  refine ⟨hdirect, ?_, huniq.put ?_, fun pe' => ?_, forall_mem_append.2 ⟨hflying, fun f hf => ?_⟩⟩
  · rw [System.put, hqueued.1, hqueued.2]
    rfl
  · have hmap := subperm_ids hsub
    rw [hids, map_append, List.map_map] at hmap
    exact hmap
  · by_cases heq : pe' = pe
    · subst heq
      rw [show (s.put pe' o).hosts pe' = o.host from update_self _ _ _]
      exact ⟨hbcast, hold, fun el hel => hl el (hsub.subset (mem_append_left _ hel))⟩
    · rw [show (s.put pe o).hosts pe' = s.hosts pe' from update_of_ne heq _ _]
      exact hfresh pe' heq
  · exact (hl f.2 (hsub.subset (mem_append_right _ (List.mem_map_of_mem hf)))).1

theorem ids_putElt (h : Host) (el : Element) : (h.putElt el).ids = h.ids ++ [el.id] := by
  rw [Host.ids, Host.putElt, map_append]
  rfl

/-- An element that is nowhere else comes to a PE. -/
theorem System.Unique.putElt {el : Element} {flying : List (Nat × Element)}
    {used : List Nat} (pe : Nat)
    (huniq : s.Unique) (hflying : flying.Sublist s.flying) (hused : s.used ⊆ used)
    (hel : el.id ∈ used)
    (hnew : ∀ pe, el.id ∉ (s.hosts pe).ids) (hnew' : el.id ∉ flyingIds flying) : ({ s with
        hosts := update s.hosts pe ((s.hosts pe).putElt el)
        flying := flying
        used := used } : System).Unique := by
  have hall : ((s.hosts pe).ids ++ flyingIds flying).Sublist
      ((s.hosts pe).ids ++ flyingIds s.flying) :=
    (hflying.map _).append_left _
  have hperm : ((update s.hosts pe ((s.hosts pe).putElt el) pe).ids ++ flyingIds flying).Perm
      (el.id :: ((s.hosts pe).ids ++ flyingIds flying)) := by
    rw [update_self, ids_putElt, append_assoc]
    exact perm_middle
  refine huniq.change (fun pe' (hne : pe' ≠ pe) => update_of_ne hne _ _) ?_
    (fun pe' hne id hid => ?_)
    (fun id hid => ?_) hused
  · refine hperm.nodup_iff.2 (nodup_cons.2 ⟨fun hid => ?_, (huniq.nodup pe).sublist hall⟩)
    exact (mem_append.1 hid).elim (hnew pe) hnew'
  · rcases mem_cons.1 (hperm.subset hid) with rfl | hid
    · exact hnew pe'
    · exact huniq.far hne (hall.subset hid)
  · rcases mem_cons.1 (hperm.subset hid) with rfl | hid
    · exact hel
    · exact hused (huniq.used pe (hall.subset hid))

end Put

/-! ## Runs -/

/-- When an entry method may destroy its element or send it away: in `recvBroadcast` only for the
last element, and in `bringUpToDate` only at the last broadcast. -/
def Event.Quiet (s : System) : Event → Prop
  | .recv pe fates => ∀ el ∈ (s.hosts pe).localElemVec.dropLast,
      (s.hosts pe).bcastNo < el.bcastNo ∨ (fates el.id).StaysAt pe
  | .insert pe _ stamp fates => ∀ m, stamp < m → m < (s.hosts pe).bcastNo → (fates m).StaysAt pe
  | .arrive pe id fates => ∀ el, (pe, el) ∈ s.flying → el.id = id →
      ∀ m, el.bcastNo < m → m < (s.hosts pe).bcastNo → (fates m).StaysAt pe
  | _ => True

/-- A step in which that is so. -/
def QuietStep (s : System) (e : Event) (s' : System) : Prop := e.Quiet s ∧ s.exec e = some s'

section Steps

variable {s : System} {pe : Nat} {fates : Nat → Fate}

/-- A PE receives the next broadcast. -/
theorem good_recv (hgood : s.Good) (hlt : (s.hosts pe).bcastNo < s.issued)
    (hquiet : ∀ el ∈ (s.hosts pe).localElemVec.dropLast,
      (s.hosts pe).bcastNo < el.bcastNo ∨ (fates el.id).StaysAt pe) :
    ∃ o, recvBroadcast false pe fates ((s.hosts pe).bcastNo + 1)
    (s.hosts pe) = some o ∧ (s.put pe o).Good := by
  have hfresh := hgood.fresh pe
  obtain ⟨o, ho, hno, hold, hqueued, hsub⟩ :=
    @deliverAll_spec ((s.hosts pe).incoming ((s.hosts pe).bcastNo + 1)) pe
    ((s.hosts pe).bcastNo + 1) fates [] (s.hosts pe).localElemVec rfl
    (nodup_append'.1 (hgood.unique.nodup pe)).1 hquiet
  refine ⟨o, ho, good_put hgood.direct ⟨hgood.queued, hqueued⟩ hgood.unique
    (fun pe' _ => hgood.fresh pe')
    hgood.flying ?_ hsub ?_ ?_ ?_⟩
  · rw [nil_append, List.map_map, Host.ids]
    refine map_congr_left fun el _ => ?_
    rw [comp_apply, Element.advance]
    split <;> rfl
  · rw [hno]
    exact hlt
  · rw [hold, hno, Host.incoming, hfresh.oldBcasts, range'_1_concat, Nat.add_comm 1]
  · intro el hel
    obtain ⟨x, hx, rfl⟩ := mem_map.1 hel
    obtain ⟨htrack, hle⟩ := hfresh.track x hx
    rw [hno]
    exact htrack.advance hle hlt

/-- An element comes to a PE. -/
theorem good_putElt {el : Element} {flying : List (Nat × Element)} {used : List Nat}
    (hgood : s.Good)
    (hflying : flying.Sublist s.flying) (hused : s.used ⊆ used) (hel : el.id ∈ used)
    (hnew : ∀ pe, el.id ∉ (s.hosts pe).ids) (hnew' : el.id ∉ flyingIds flying)
    (htrack : el.Track s.issued)
    (hquiet : ∀ m, el.bcastNo < m → m < (s.hosts pe).bcastNo → (fates m).StaysAt pe) :
    ∃ o, bringUpToDate false pe fates el.id ((s.hosts pe).putElt el) = some o ∧
      ({ s with flying := flying, used := used }.put pe o).Good := by
  have huniq := System.Unique.putElt pe hgood.unique hflying hused hel hnew hnew'
  have hhost : (update s.hosts pe ((s.hosts pe).putElt el)) pe = (s.hosts pe).putElt el :=
    update_self _ _ _
  have hnodup := (nodup_append'.1 (huniq.nodup pe)).1
  dsimp only at hnodup
  rw [hhost] at hnodup
  obtain ⟨o, ho, hno, hold, hqueued, hsub⟩ :=
    bringUpToDate_spec hnodup (hgood.fresh pe).oldBcasts hquiet
  have hput : ({ s with flying := flying, used := used } : System).put pe o =
      System.put { s with
        hosts := update s.hosts pe ((s.hosts pe).putElt el)
        flying := flying
        used := used } pe o := by
    simp only [System.put, update_idem]
  refine ⟨o, ho, ?_⟩
  rw [hput]
  refine good_put hgood.direct ⟨hgood.queued, hqueued⟩ huniq (fun pe' hne => ?_)
    (fun f hf => hgood.flying f (hflying.subset hf)) ?_ hsub ?_ ?_ ?_
  · dsimp only
    rw [update_of_ne hne]
    exact hgood.fresh pe'
  · dsimp only
    rw [hhost, ids_putElt, map_append]
    rfl
  · rw [hno]
    exact (hgood.fresh pe).bcastNo
  · rw [hno]
    exact hold
  · rw [hno]
    exact forall_mem_concat (hgood.fresh pe).track
      ⟨htrack.catchUp (le_max_right _ _) (max_le (hgood.fresh pe).bcastNo htrack.bcastNo),
        le_max_left _ _⟩

/-- An element is destroyed, or migrates. -/
theorem good_depart {id : Nat} {fate : Fate} (hgood : s.Good) (hid : id ∈ (s.hosts pe).ids) :
    (s.put pe ((s.hosts pe).depart pe id fate)).Good := by
  obtain ⟨el, hel, rfl⟩ := mem_map.1 hid
  obtain ⟨pre, post, hvec⟩ := append_of_mem hel
  obtain ⟨hno, hold⟩ := @depart_host_bcastNo (s.hosts pe) pe fate el.id
  have hfresh := hgood.fresh pe
  refine good_put hgood.direct ⟨hgood.queued, depart_queued el.id⟩ hgood.unique
    (fun pe' _ => hgood.fresh pe')
    hgood.flying (hvec ▸ rfl) (subperm_depart hvec (nodup_append'.1 (hgood.unique.nodup pe)).1) ?_
      ?_ fun x hx => ?_
  · rw [hno]
    exact hfresh.bcastNo
  · rw [hold, hno, hfresh.oldBcasts]
  · rw [hno]
    exact hfresh.track x (hvec ▸ hx)

/-- An element that arrives was nowhere else. -/
theorem not_mem_flyingIds_erase {f : Nat × Element} (hgood : s.Good) (hf : f ∈ s.flying) :
    (∀ pe, f.2.id ∉ (s.hosts pe).ids) ∧ f.2.id ∉ flyingIds (s.flying.erase f) := by
  have hmem : f.2.id ∈ flyingIds s.flying := List.mem_map_of_mem (f := fun f => f.2.id) hf
  refine ⟨fun pe hid => (nodup_append'.1 (hgood.unique.nodup pe)).2.2 hid hmem, ?_⟩
  have hperm : (flyingIds s.flying).Perm (f.2.id :: flyingIds (s.flying.erase f)) :=
    (perm_cons_erase hf).map fun f : Nat × Element => f.2.id
  have hnodup := hperm.nodup_iff.1 (nodup_append'.1 (hgood.unique.nodup 0)).2.1
  exact (nodup_cons.1 hnodup).1

/-- No event reads past the end of anything, and the invariant is kept. -/
theorem exec_good {e : Event} (hgood : s.Good) (henabled : s.Enabled e) (hquiet : e.Quiet s) :
    ∃ s', s.exec e = some s' ∧ s'.Good := by
  cases e with
  | broadcast =>
    have huniq : ({ s with issued := s.issued + 1 } : System).Unique :=
      ⟨hgood.unique.nodup, hgood.unique.disjoint, hgood.unique.used⟩
    refine ⟨_, rfl, hgood.direct, hgood.queued, huniq, fun pe => ?_, fun f hf => ?_⟩
    · obtain ⟨hbcast, hold, htrack⟩ := hgood.fresh pe
      exact ⟨Nat.le_succ_of_le hbcast, hold,
        fun el hel => ⟨(htrack el hel).1.mono (Nat.le_succ _), (htrack el hel).2⟩⟩
    · exact (hgood.flying f hf).mono (Nat.le_succ _)
  | recv pe fates =>
    obtain ⟨o, ho, hput⟩ := good_recv hgood henabled hquiet
    refine ⟨_, (if_pos henabled).trans ?_, hput⟩
    rw [hgood.direct, ho]
    rfl
  | insert pe id stamp fates =>
    obtain ⟨hnew, hstamp⟩ := henabled
    have hids : ∀ pe, id ∉ (s.hosts pe).ids ++ flyingIds s.flying :=
      fun pe hid => hnew (hgood.unique.used pe hid)
    obtain ⟨o, ho, hput⟩ :=
      @good_putElt s pe fates ⟨id, stamp, stamp, []⟩ s.flying (id :: s.used) hgood
      (Sublist.refl _) (subset_cons_self _ _) mem_cons_self
      (fun pe hid => hids pe (mem_append_left _ hid)) (fun hid => hids pe (mem_append_right _ hid))
      ⟨le_rfl, hstamp, by rw [Nat.sub_self]; rfl⟩ hquiet
    refine ⟨_, (if_pos ⟨hnew, hstamp⟩).trans ?_, hput⟩
    rw [hgood.direct, ho]
    rfl
  | arrive pe id fates =>
    obtain ⟨el, hel, rfl⟩ := henabled
    obtain ⟨f, hf⟩ : ∃ f, s.flying.find? (fun f => f.1 = pe ∧ f.2.id = el.id) = some f :=
      isSome_iff_exists.1 (find?_isSome.2 ⟨(pe, el), hel, by simp⟩)
    obtain ⟨hpe, hid⟩ : f.1 = pe ∧ f.2.id = el.id := by simpa using find?_some hf
    have hmem := mem_of_find?_eq_some hf
    obtain ⟨hnew, hnew'⟩ := not_mem_flyingIds_erase hgood hmem
    have hused : f.2.id ∈ s.used :=
      hgood.unique.used pe (mem_append_right _ (List.mem_map_of_mem (f := fun f => f.2.id) hmem))
    obtain ⟨o, ho, hput⟩ :=
      @good_putElt s pe fates f.2 (s.flying.erase f) s.used hgood erase_sublist
      (Subset.refl _) hused hnew hnew' (hgood.flying f hmem) (hquiet f.2 (hpe ▸ hmem) hid)
    refine ⟨_, ?_, hput⟩
    rw [System.exec, hf, bind_some, hgood.direct, ← hid, ho]
    rfl
  | depart pe id fate =>
    exact ⟨_, if_pos henabled, good_depart hgood henabled⟩
  | process pe id msg fate =>
    rw [System.Enabled, hgood.queued] at henabled
    exact absurd henabled.1 not_mem_nil

end Steps

theorem good_init : (System.init false).Good where
  direct := rfl
  queued := rfl
  unique := ⟨fun _ => nodup_nil, fun _ _ _ => disjoint_nil_left _, fun _ => nil_subset _⟩
  fresh _ := ⟨Nat.zero_le _, rfl, nofun⟩
  flying _ hf := absurd hf not_mem_nil

theorem enabled_of_exec {s s' : System} {e : Event} (hexec : s.exec e = some s') : s.Enabled e := by
  cases e with
  | broadcast => trivial
  | recv | insert | depart | process => exact (ite_none_right_eq_some.1 hexec).1
  | arrive pe id fates =>
    obtain ⟨f, hf, -⟩ := bind_eq_some_iff.1 hexec
    obtain ⟨hpe, hid⟩ : f.1 = pe ∧ f.2.id = id := by simpa using find?_some hf
    exact ⟨f.2, hpe ▸ mem_of_find?_eq_some hf, hid⟩

/-- In the runs in which entry methods destroy their elements or send them away only when they may,
all elements have received the broadcasts from their creation on, in order and once each: up to the
number of their PE when it has received all. The old broadcasts are in order, and no loop reads past
the end. -/
theorem broadcasts_once_in_order {s : System} {es : List Event}
    (hrun : Run QuietStep (System.init false) es s) :
    (∀ pe, ∀ el ∈ (s.hosts pe).localElemVec, (s.hosts pe).bcastNo ≤ el.bcastNo ∧
      el.stamp ≤ el.bcastNo ∧
        el.received = range' (el.stamp + 1) (el.bcastNo - el.stamp) ∧
        ((s.hosts pe).bcastNo = s.issued → el.bcastNo = (s.hosts pe).bcastNo)) ∧
      (∀ pe, (s.hosts pe).oldBcasts = range' 1 (s.hosts pe).bcastNo) ∧
      ∀ e, s.Enabled e → e.Quiet s → ∃ s', s.exec e = some s' := by
  have hgood : s.Good := by
    refine hrun.invariant good_init fun s e s' hs ⟨hquiet, hexec⟩ => ?_
    obtain ⟨t, ht, hgood⟩ := exec_good hs (enabled_of_exec hexec) hquiet
    rw [some.inj (hexec.symm.trans ht)]
    exact hgood
  refine ⟨fun pe el hel => ?_, fun pe => (hgood.fresh pe).oldBcasts, fun e henabled hquiet => ?_⟩
  · obtain ⟨htrack, hle⟩ := (hgood.fresh pe).track el hel
    exact ⟨hle, htrack.stamp, htrack.received, fun heq => le_antisymm (heq ▸ htrack.bcastNo) hle⟩
  · obtain ⟨s', hs', -⟩ := exec_good hgood henabled hquiet
    exact ⟨s', hs'⟩

/-- Two elements of one PE receive a broadcast, and the first of them is sent away. -/
theorem broadcasts_once_in_order_two : ∃ s es, Run QuietStep (System.init false) es s ∧
      (s.hosts 0).localElemVec = [⟨2, 1, 0, [1]⟩] ∧ s.flying = [(1, ⟨1, 1, 0, [1]⟩)] ∧
      (s.hosts 0).oldBcasts = range' 1 (s.hosts 0).bcastNo := by
  have hnone : ∀ m, 0 < m → m < 0 → Fate.StaysAt 0 .stays :=
    fun m _ hm => absurd hm (Nat.not_lt_zero m)
  have hrun : Run QuietStep (System.init false)
      [.insert 0 1 0 fun _ => .stays, .insert 0 2 0 fun _ => .stays, .broadcast,
        .recv 0 fun _ => .stays, .depart 0 1 (.leaves 1)] _ :=
    .cons ⟨hnone, rfl⟩
      (.cons ⟨hnone, rfl⟩ (.cons ⟨trivial, rfl⟩ (.cons ⟨fun _ _ => .inr (.inl rfl), rfl⟩
      (.single ⟨trivial, rfl⟩))))
  exact ⟨_, _, hrun, rfl, rfl, (broadcasts_once_in_order hrun).2.1 0⟩

/-- Element 1 is brought up to date on PE 0, and is destroyed by the first of two broadcasts. The
queue of old broadcasts stays as it is then, with the second broadcast in front. Element 2, which
lacks the second broadcast, arrives afterwards and is given the first one again. -/
theorem catch_up_rotated : ∃ s, Run (fun s e s' => s.exec e = some s') (System.init false)
        [.insert 1 1 0 fun _ => .stays, .insert 1 2 0 fun _ => .stays,
          .depart 1 1 (.leaves 0), .broadcast,
          .recv 1 fun _ => .stays, .depart 1 2 (.leaves 0), .broadcast, .recv 0 fun _ => .stays,
          .recv 0 fun _ => .stays, .arrive 0 1 fun msg => if msg = 1 then .dies else .stays,
          .arrive 0 2 fun _ => .stays] s ∧
      (s.hosts 0).bcastNo = 2 ∧ s.issued = 2 ∧ (s.hosts 0).localElemVec = [⟨2, 2, 0, [1, 1]⟩] :=
  ⟨_, Run.of_foldlM rfl, rfl, rfl, rfl⟩

/-- Two elements are on a PE that receives a broadcast. When the first of them is destroyed, the
loop goes on to the second position, which is past the end, and the second element does not get the
broadcast. -/
example : ((System.init false).exec (.insert 0 1 0 fun _ => .stays) >>= fun s =>
    s.exec (.insert 0 2 0 fun _ => .stays) >>= fun s => s.exec .broadcast >>= fun s =>
    s.exec (.recv 0 fun id => if id = 1 then .dies else .stays)).isNone := rfl

end CharmRuntime.ArrayBroadcast
