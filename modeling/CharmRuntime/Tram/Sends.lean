import CharmRuntime.Tram.Streamer

/-!
# What a call of the streamer sends

All calls are made of a few steps: an item is put into a buffer, a buffer is sent along its route,
an item is delivered, and counts change. `Emits` is a sequence of the second and the last kind. The
flushes and the whole of staged completion are such sequences (`emits_flushDimension`,
`emits_checkForCompletedStages`), so that a property that these two steps keep holds after them.
-/

set_option autoImplicit false

namespace CharmRuntime.Tram

open List

namespace System

variable {cfg : Config} {pe dim idx q i j : Nat} {s t u : System}
  {f : MeshStreamer → MeshStreamer} {α : Type}

/-! ## The steps -/

/-- Where the items are in two states is the same; the counts and the stages may differ. -/
structure SameItems (s t : System) : Prop where
  buffers : ∀ q, (t.streamers q).dataBuffers = (s.streamers q).dataBuffers
  number : ∀ q, (t.streamers q).numDataItemsBuffered = (s.streamers q).numDataItemsBuffered
  delivered : ∀ q, (t.streamers q).delivered = (s.streamers q).delivered
  network : t.network = s.network
  inserted : t.inserted = s.inserted

@[simp] theorem modify_streamers (f : MeshStreamer → MeshStreamer) (q : Nat) :
    (s.modify pe f).streamers q = if q = pe then f (s.streamers pe) else s.streamers q :=
  Function.update_apply ..

theorem apply_modify {β : Type} (g : MeshStreamer → β) (hg : ∀ st, g (f st) = g st)
    (q : Nat) : g ((s.modify pe f).streamers q) = g (s.streamers q) := by
  rw [modify_streamers]
  split
  · subst_vars
    exact hg _
  · rfl

theorem dataBuffers_pushEntry (e : Entry) (q i j : Nat) :
    ((s.pushEntry pe dim idx e).streamers q).dataBuffers i j =
      if q = pe ∧ i = dim ∧ j = idx then (s.streamers pe).dataBuffers dim idx ++ [e]
      else (s.streamers q).dataBuffers i j := by
  rw [pushEntry, modify_streamers]
  by_cases hq : q = pe
  · subst hq
    by_cases hi : i = dim
    · subst hi
      by_cases hj : j = idx <;> simp [hj]
    · simp [hi]
  · simp [hq]

theorem dataBuffers_clearBuffer (q i j : Nat) :
    ((s.clearBuffer pe dim idx).streamers q).dataBuffers i j =
      if q = pe ∧ i = dim ∧ j = idx then [] else (s.streamers q).dataBuffers i j := by
  rw [clearBuffer, modify_streamers]
  by_cases hq : q = pe
  · subst hq
    by_cases hi : i = dim
    · subst hi
      by_cases hj : j = idx <;> simp [hj]
    · simp [hi]
  · simp [hq]

/-! ## Sequences of them -/

variable (cfg pe s) in
/-- A buffer is sent along its route, or the counts change. -/
inductive Emit : System → Prop
  | send (dim idx : Nat) (final : Int) :
    Emit (s.sendMeshStreamerMessage cfg pe dim idx ((cfg.router pe).nextPeAlongRoute dim idx) final)
  | count {t : System} (h : SameItems s t) : Emit t

/-- Some buffers are sent, and counts change. -/
def Emits (cfg : Config) (pe : Nat) : System → System → Prop := Relation.ReflTransGen (Emit cfg pe)

namespace Emits

theorem refl (s : System) : Emits cfg pe s s := Relation.ReflTransGen.refl

theorem trans (h : Emits cfg pe s t) (h' : Emits cfg pe t u) : Emits cfg pe s u :=
  Relation.ReflTransGen.trans h h'

theorem send (dim idx : Nat) (final : Int) :
    Emits cfg pe s
    (s.sendMeshStreamerMessage cfg pe dim idx ((cfg.router pe).nextPeAlongRoute dim idx) final) :=
  .single (.send dim idx final)

/-- A change of the counts leaves the items where they are. -/
theorem modify (h : ∀ st, (f st).dataBuffers = st.dataBuffers ∧
      (f st).numDataItemsBuffered = st.numDataItemsBuffered ∧ (f st).delivered = st.delivered) :
    Emits cfg pe s (s.modify pe f) :=
  .single (.count ⟨apply_modify _ fun st => (h st).1, apply_modify _ fun st => (h st).2.1,
    apply_modify _ fun st => (h st).2.2, rfl, rfl⟩)

theorem foldl {f : System → α → System} (hf : ∀ s a, Emits cfg pe s (f s a)) (l : List α)
    (s : System) : Emits cfg pe s (l.foldl f s) := by
  induction l generalizing s with
  | nil => exact refl s
  | cons a l ih => exact (hf s a).trans (ih _)

variable (h : Emits cfg pe s t)

include h

/-- What the two steps keep holds after a sequence of them. -/
theorem preserves {P : System → Prop} (hsend : ∀ s dim idx final, P s →
      P (s.sendMeshStreamerMessage cfg pe dim idx ((cfg.router pe).nextPeAlongRoute dim idx) final))
    (hcount : ∀ s t, SameItems s t → P s → P t) (hs : P s) : P t := by
  induction h with
  | refl => exact hs
  | tail _ hstep ih =>
    cases hstep with
    | send dim idx final => exact hsend _ dim idx final ih
    | count h => exact hcount _ _ h ih

/-- A buffer that is empty stays empty. -/
theorem empty (hempty : (s.streamers q).dataBuffers i j = []) :
    (t.streamers q).dataBuffers i j = [] := by
  refine h.preserves (P := fun s => (s.streamers q).dataBuffers i j = []) ?_ ?_ hempty
  · intro s dim idx final hs
    rw [sendMeshStreamerMessage, dataBuffers_clearBuffer]
    split
    · rfl
    · exact hs
  · intro s t hsame hs
    rw [hsame.buffers, hs]

/-- Messages in flight stay in flight. -/
theorem mem_network {m : Message} (hm : m ∈ s.network) : m ∈ t.network :=
  h.preserves (P := fun s => m ∈ s.network) (fun _ _ _ _ hm => mem_append_left _ hm)
    (fun _ _ hsame hm => hsame.network.symm ▸ hm) hm

end Emits

theorem emits_countSent (dim idx : Nat) : Emits cfg pe s (s.countSent pe dim idx) :=
  .modify fun _ => ⟨rfl, rfl, rfl⟩

theorem emits_sendLargestOf (s : System) (dim : Nat) :
    Emits cfg pe s (s.sendLargestOf cfg pe dim) := by
  rw [sendLargestOf]
  split
  · exact .refl s
  · dsimp only
    split
    · exact .send ..
    · split
      · exact (Emits.send ..).trans (emits_countSent ..)
      · exact .send ..

theorem emits_sendLargestBuffer (s : System) : Emits cfg pe s (s.sendLargestBuffer cfg pe) :=
  .foldl emits_sendLargestOf _ s

/-- An item that has a route is stored; buffers may be sent. -/
theorem storeMessage_spec (s : System) (item : Item) (hops : Nat) {route : Route}
    (hdim : route.dimension < cfg.numDimensions)
    (hidx : route.dimensionIndex < (cfg.router pe).numBuffersPerDimension route.dimension)
    (hnext : (cfg.router pe).nextPeAlongRoute route.dimension route.dimensionIndex =
      route.destinationPe) :
    ∃ t, s.storeMessage cfg pe item hops route = some t ∧ Emits cfg pe
        (s.pushEntry pe route.dimension route.dimensionIndex ⟨item, hops, route.destinationPe⟩)
          t := by
  rw [storeMessage, if_pos ⟨hdim, hidx⟩, ← hnext]
  dsimp only
  split
  · refine ⟨_, rfl, ?_⟩
    split
    · exact (Emits.send ..).trans (emits_countSent ..)
    · exact .send ..
  · split
    · exact ⟨_, rfl, emits_sendLargestBuffer _⟩
    · exact ⟨_, rfl, .refl _⟩

theorem emits_flushBuffer (dim : Nat) (counts : Bool) (s : System) (idx : Nat) :
    Emits cfg pe s (s.flushBuffer cfg pe dim counts idx) := by
  rw [flushBuffer]
  split
  · exact .refl s
  · dsimp only
    split
    · split
      · exact .send ..
      · exact (emits_countSent ..).trans (Emits.send ..)
    · exact .send ..

theorem emits_flushDimension (counts : Bool) (s : System) (dim : Nat) :
    Emits cfg pe s (s.flushDimension cfg pe counts dim) :=
  .foldl (emits_flushBuffer dim counts) _ s

theorem flushBuffer_empty (counts : Bool) (s : System) (idx : Nat) :
    ((s.flushBuffer cfg pe dim counts idx).streamers pe).dataBuffers dim idx = [] := by
  have hsend (s : System) (q : Nat) (final : Int) :
      ((s.sendMeshStreamerMessage cfg pe dim idx q final).streamers pe).dataBuffers dim idx =
          [] := by
    rw [sendMeshStreamerMessage, dataBuffers_clearBuffer, if_pos ⟨rfl, rfl, rfl⟩]
  rw [flushBuffer]
  split
  · exact (‹_ ∧ _› : _ ∧ _).1
  · dsimp only
    split
    · split <;> exact hsend ..
    · exact hsend ..

/-- If one of several steps empties a buffer, it is empty after them. -/
theorem foldl_empty {f : System → α → System} {a : α}
    (hemits : ∀ s a, Emits cfg pe s (f s a)) (hf : ∀ s, ((f s a).streamers q).dataBuffers i j = [])
    {l : List α} (ha : a ∈ l) (s : System) : ((l.foldl f s).streamers q).dataBuffers i j = [] := by
  induction l generalizing s with
  | nil => cases ha
  | cons b l ih =>
    rcases mem_cons.1 ha with rfl | ha
    · exact (Emits.foldl hemits l _).empty (hf s)
    · exact ih ha _

/-- A flushed dimension has empty buffers. -/
theorem flushDimension_empty (counts : Bool) (s : System)
    (hidx : idx < (cfg.router pe).numBuffersPerDimension dim) :
    ((s.flushDimension cfg pe counts dim).streamers pe).dataBuffers dim idx = [] :=
  foldl_empty (emits_flushBuffer dim counts) (fun s => flushBuffer_empty counts s idx)
    (mem_range.2 hidx) s

theorem emits_flushToIntermediateDestinations (s : System) :
    Emits cfg pe s (s.flushToIntermediateDestinations cfg pe) :=
  .foldl (emits_flushDimension false) _ s

theorem flushToIntermediateDestinations_empty (s : System) (hdim : dim < cfg.numDimensions)
    (hidx : idx < (cfg.router pe).numBuffersPerDimension dim) :
    ((s.flushToIntermediateDestinations cfg pe).streamers pe).dataBuffers dim idx = [] :=
  foldl_empty (emits_flushDimension false) (fun s => flushDimension_empty false s hidx)
    (mem_range.2 hdim) s

theorem emits_flushIfIdle (h : s.flushIfIdle cfg pe = some t) : Emits cfg pe s t := by
  obtain ⟨-, h⟩ := Option.ite_none_right_eq_some.1 h
  cases h
  split
  · exact emits_flushToIntermediateDestinations s
  · exact .refl s

theorem emits_enterStage (s : System) : Emits cfg pe s (s.enterStage cfg pe) := by
  rw [enterStage]
  refine (Emits.modify ?_).trans
    ((Emits.foldl (emits_flushDimension true) _ _).trans (.modify ?_)) <;>
    exact fun _ => ⟨rfl, rfl, rfl⟩

theorem emits_checkForCompletedStages {fuel : Nat}
    (h : s.checkForCompletedStages cfg pe fuel = some t) : Emits cfg pe s t := by
  induction fuel generalizing s with
  | zero => cases h
  | succ fuel ih =>
    rw [checkForCompletedStages] at h
    dsimp only at h
    split at h
    · split at h
      · split at h
        · -- the last stage is over
          split at h
          · cases h
            exact (emits_enterStage s).trans (.modify fun _ => ⟨rfl, rfl, rfl⟩)
          · cases h
        · exact (emits_enterStage s).trans (ih h)
      · cases h
        exact .refl _
    · cases h

theorem emits_startStagedCompletion (h : s.startStagedCompletion cfg pe = some t) :
    Emits cfg pe s t := by
  refine Emits.trans ?_ ((emits_enterStage _).trans (emits_checkForCompletedStages h))
  exact .modify fun _ => ⟨rfl, rfl, rfl⟩

theorem emits_checkIfStarted (h : s.checkIfStarted cfg pe = some t) : Emits cfg pe s t := by
  rw [checkIfStarted] at h
  split at h
  · exact emits_checkForCompletedStages h
  · cases h
    exact .refl s

theorem emits_countReceived (msgType : Nat) (final : Int) :
    Emits cfg pe s (s.countReceived pe msgType final) := by
  refine .modify fun st => ?_
  split <;> exact ⟨rfl, rfl, rfl⟩

theorem emits_markMessageReceived {msgType : Nat} {final : Int}
    (h : s.markMessageReceived cfg pe msgType final = some t) : Emits cfg pe s t := by
  rw [markMessageReceived] at h
  split at h
  · exact (emits_countReceived ..).trans (emits_checkIfStarted h)
  · cases h

theorem emits_done {n : Nat} (h : s.done cfg pe n = some t) : Emits cfg pe s t := by
  have hdone : Emits cfg pe s (s.modify pe fun st =>
      { st with numLocalDone := st.numLocalDone + n }) :=
    .modify fun _ => ⟨rfl, rfl, rfl⟩
  rw [done] at h
  dsimp only at h
  split at h
  · split at h
    · cases h
      exact hdone
    · split at h
      · exact hdone.trans (emits_startStagedCompletion h)
      · cases h
  · cases h
    exact .refl s

end System

end CharmRuntime.Tram
