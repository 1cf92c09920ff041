import CharmRuntime.Lib.Ascent
import CharmRuntime.Location.Tracking

/-!
# Forwarding

A message for an element is passed on along the entries of `id2pe`, from one processor to the next.
Every entry stems from a place where the element has been, or is the guess that the home knows more.
A processor writes what it is told last, so a late call can put an old place over a newer one, and
two processors that the element has left can then send its messages to each other for good
(`forwarding_loops`). In runs in which no processor is told of a place older than the one it knows,
and no guess is made while the home knows nothing, the places along the entries are later and later
ones, and the entries lead to the element (`forwarding_reaches`).
-/

set_option autoImplicit false

namespace CharmRuntime.Location

open Lib Function List Option

variable {Idx : Type} {L : IdLayout} {cfg : Config Idx} {x : Idx} {i n p : Nat} {locs : Nat → Nat}
  {w : System Idx}
variable {net : List (Wire Idx)} {o : Outcome Idx} {sent : List (UserMsg Idx)}

/-! ## The places of an element

The element has lived on the processors `locs 1`, …, `locs n`; it is on the last one, or on its way
to it. -/

/-- The home of the identifier knows a place where the element has been. -/
def HomeKnown (cfg : Config Idx) (w : System Idx) (i : Nat) : Prop :=
  ∃ place, (w.pes (homePeId cfg i)).id2pe i = some place ∧ 0 < place.moves

/-- A place where the element has been, or the guess that it is at home, when the home knows
more. -/
def Aged (cfg : Config Idx) (w : System Idx) (i : Nat) (locs : Nat → Nat) (n : Nat)
    (place : Place) : Prop :=
  0 < place.moves ∧ place.moves ≤ n ∧ place.pe = locs place.moves ∨
    place.moves = 0 ∧ place.pe = homePeId cfg i ∧ HomeKnown cfg w i

/-- What is known of the element on the processors and in the calls. -/
structure Knows (cfg : Config Idx) (x : Idx) (i : Nat) (locs : Nat → Nat) (n : Nat)
    (w : System Idx) : Prop where
  entry : ∀ p place, (w.pes p).id2pe i = some place → Aged cfg w i locs n place
  left : ∀ k, 0 < k → k < n → ∃ place, (w.pes (locs k)).id2pe i = some place ∧ k < place.moves
  idx2id : cfg.compressor = none → ∀ p, (w.pes p).idx2id x = some i → (w.pes p).id2pe i ≠ none
  named : cfg.compressor = none → ∀ k, 0 < k → k < n → (w.pes (locs k)).idx2id x ≠ none
  creator : cfg.compressor = none → homePeId cfg i = locs 1
  wires : ∀ wire ∈ w.net, wire.call.carries i = true ∨
    wire.call.Sound cfg i (Aged cfg w i locs n) (HomeKnown cfg w i)

/-- The element exists, in one place. -/
structure Trail (cfg : Config Idx) (x : Idx) (i : Nat) (locs : Nat → Nat) (n : Nat)
    (w : System Idx) : Prop extends Knows cfg x i locs n w where
  pos : 0 < n
  pair : Pair cfg w x i
  record : ∀ p record, (w.pes p).hash i = some record → p = locs n ∧ record = ⟨x, n⟩
  host : (w.pes (locs n)).hash i ≠ none ∧ w.flights i = [] ∨
    (∀ p, (w.pes p).hash i = none) ∧ 1 < n ∧
      ∃ elements, w.flights i = [⟨locs n, .immigrate x i elements n⟩]
  here : (w.pes (locs n)).hash i ≠ none →
    (∃ place, (w.pes (locs n)).id2pe i = some place ∧ n ≤ place.moves) ∧
      (cfg.compressor = none → (w.pes (locs n)).idx2id x ≠ none)

/-! ### Consequences -/

variable {place : Place}

theorem Aged.moves_le (h : Aged cfg w i locs n place) : place.moves ≤ n := by
  rcases h with ⟨-, h, -⟩ | ⟨h, -⟩ <;> omega

theorem Aged.guess (h : HomeKnown cfg w i) : Aged cfg w i locs n ⟨homePeId cfg i, 0⟩ :=
  .inr ⟨rfl, rfl, h⟩

variable {locs' : Nat → Nat}

variable {mgr n' : Nat}

theorem Aged.mono {w' : System Idx} (h : Aged cfg w i locs n place) (hle : n ≤ n')
    (hlocs : ∀ k, k ≤ n → locs' k = locs k) (hhome : HomeKnown cfg w i → HomeKnown cfg w' i) :
    Aged cfg w' i locs' n' place := by
  rcases h with ⟨hpos, hn, hpe⟩ | ⟨hzero, hpe, hknown⟩
  · exact .inl ⟨hpos, hn.trans hle, hpe.trans (hlocs _ hn).symm⟩
  · exact .inr ⟨hzero, hpe, hhome hknown⟩

theorem Call.Sound.mono {A B : Place → Prop} {H J : Prop} {call : Call Idx}
    (h : call.Sound cfg i A H) (hAB : ∀ place, A place → B place) (hHJ : H → J) :
    call.Sound cfg i B J := by
  cases call with
  | updateLocationIdx | updateLocation => exact fun hid => hAB _ (h hid)
  | requestLocation => exact fun hid => hHJ (h hid)
  | _ => exact h

variable {code : IndexCode Idx} {wire : Wire Idx}

theorem mem_of_flights (h : w.flights i = [wire]) : wire ∈ w.net :=
  (mem_filter.1 (h ▸ mem_singleton_self wire : wire ∈ w.flights i)).1

section Trail

variable (h : Trail cfg x i locs n w)

include h

/-- Without a compressor the home of the identifier is where the element was created, which
knows. -/
theorem Trail.homeKnown (hc : cfg.compressor = none) : HomeKnown cfg w i := by
  rw [HomeKnown, h.creator hc]
  by_cases hn : n = 1
  · have hhash : (w.pes (locs 1)).hash i ≠ none := by
      rcases h.host with ⟨hhash, -⟩ | ⟨-, hn', -⟩
      · exact hn ▸ hhash
      · omega
    have hhere := h.here
    rw [hn] at hhere
    exact (hhere hhash).1
  · have hpos := h.pos
    obtain ⟨place, hplace, hmoves⟩ := h.left 1 Nat.one_pos (by omega)
    exact ⟨place, hplace, by omega⟩

theorem Trail.pair_eq (hids : IdsOk L cfg w) {idx : Idx} (hpair : Pair cfg w idx i) : idx = x :=
  hids.pair_unique hpair h.pair

theorem Trail.home_eq (hc : cfg.compressor = some code) : homePeId cfg i = cfg.home x := by
  have hpair := h.pair
  rw [Pair, hc] at hpair
  rw [hpair, homePeId_compress hc]

theorem Trail.live : w.Live x i := by
  rcases h.host with ⟨hhash, -⟩ | ⟨-, -, elements, hfl⟩
  · obtain ⟨record, hrec⟩ := ne_none_iff_exists'.1 hhash
    exact .inl ⟨_, record, hrec, by rw [(h.record _ _ hrec).2]⟩
  · exact .inr ⟨_, _, _, mem_of_flights hfl⟩

theorem Trail.grounded (hids : IdsOk L cfg w) (p : Nat) :
    Grounded cfg x i p (Aged cfg w i locs n) (w.pes p) where
  record record hrec := by
    obtain ⟨hp, rfl⟩ := h.record p record hrec
    exact .inl ⟨h.pos, le_rfl, hp⟩
  entry := h.entry p
  lookup idx hlook := h.pair_eq hids ((pairRule cfg w).lookupID (hids.tables p) hlook)
  known hc := h.idx2id hc p

end Trail

/-! ### Steps -/

/-- One processor writes a place that is not older, while the element may get a new place. -/
theorem Knows.put (h : Knows cfg x i locs n w) (hle : n ≤ n') (hpos : 0 < n)
    (hlocs : ∀ k, k ≤ n → locs' k = locs k) (hnet : net ⊆ w.net)
    (hidx : o.mgr.idx2id x = some i → (w.pes p).idx2id x = some i ∨ o.mgr.id2pe i ≠ none)
    (hentry : o.mgr.id2pe i = (w.pes p).id2pe i ∨ ∃ place, o.mgr.id2pe i = some place ∧
      (∀ w', (HomeKnown cfg w i → HomeKnown cfg w' i) → Aged cfg w' i locs' n' place) ∧
        ∀ old, (w.pes p).id2pe i = some old → old.moves ≤ place.moves)
    (hnamed : cfg.compressor = none → (w.pes p).idx2id x ≠ none → o.mgr.idx2id x ≠ none)
    (hleft : ∀ k, n ≤ k → k < n' → (∃ place,
      ((w.put p net o).pes (locs' k)).id2pe i = some place ∧ k < place.moves) ∧
        (cfg.compressor = none → ((w.put p net o).pes (locs' k)).idx2id x ≠ none))
    (hwires : ∀ w', (HomeKnown cfg w i → HomeKnown cfg w' i) → ∀ wire ∈ o.sent,
      wire.call.carries i = true ∨ wire.call.Sound cfg i (Aged cfg w' i locs' n')
      (HomeKnown cfg w' i)) :
    Knows cfg x i locs' n' { w.put p net o with sent := sent } := by
  -- what a processor knows gets no older
  have hgrow : ∀ q old, (w.pes q).id2pe i = some old →
      ∃ place, ((w.put p net o).pes q).id2pe i = some place ∧ old.moves ≤ place.moves := by
    intro q old hold
    by_cases hq : q = p
    · rw [hq] at hold ⊢
      rw [put_pes_self]
      rcases hentry with heq | ⟨place, hplace, -, hnewer⟩
      · exact ⟨old, heq.trans hold, le_rfl⟩
      · exact ⟨place, hplace, hnewer old hold⟩
    · rw [put_pes_of_ne hq]
      exact ⟨old, hold, le_rfl⟩
  have hhome : HomeKnown cfg w i → HomeKnown cfg { w.put p net o with sent := sent } i := by
    rintro ⟨old, hold, hmoves⟩
    obtain ⟨place, hplace, hle⟩ := hgrow _ old hold
    exact ⟨place, hplace, by omega⟩
  have haged : ∀ place, Aged cfg w i locs n place →
      Aged cfg { w.put p net o with sent := sent } i locs' n' place :=
    fun place hplace => hplace.mono hle hlocs hhome
  refine ⟨fun q place hplace => ?_, fun k hk hkn => ?_, fun hc q hq => ?_, fun hc k hk hkn => ?_,
    fun hc => ?_, fun wire hwire => ?_⟩
  · by_cases hq : q = p
    · rw [hq, put_pes_self] at hplace
      rcases hentry with heq | ⟨place', hplace', haged', -⟩
      · exact haged place (h.entry p place (heq ▸ hplace))
      · rw [hplace'] at hplace
        cases hplace
        exact haged' _ hhome
    · rw [put_pes_of_ne hq] at hplace
      exact haged place (h.entry q place hplace)
  · by_cases hn : k < n
    · obtain ⟨old, hold, hmoves⟩ := h.left k hk hn
      obtain ⟨place, hplace, hle⟩ := hgrow _ old hold
      refine ⟨place, ?_, by omega⟩
      rw [hlocs k (by omega)]
      exact hplace
    · exact (hleft k (by omega) hkn).1
  · by_cases hqp : q = p
    · rw [hqp, put_pes_self] at hq ⊢
      rcases hidx hq with hsame | hne
      · obtain ⟨old, hold⟩ := ne_none_iff_exists'.1 (h.idx2id hc p hsame)
        rcases hentry with heq' | ⟨place, hplace, -⟩
        · rw [heq', hold]
          exact some_ne_none _
        · rw [hplace]
          exact some_ne_none _
      · exact hne
    · rw [put_pes_of_ne hqp] at hq ⊢
      exact h.idx2id hc q hq
  · by_cases hn : k < n
    · have hold := h.named hc k hk hn
      rw [hlocs k (by omega)]
      by_cases hq : locs k = p
      · rw [hq] at hold ⊢
        rw [put_pes_self]
        exact hnamed hc hold
      · rwa [put_pes_of_ne hq]
    · exact (hleft k (by omega) hkn).2 hc
  · rw [h.creator hc, hlocs 1 hpos]
  · rcases mem_append.1 hwire with hwire | hwire
    · exact (h.wires wire (hnet hwire)).imp_right fun hsound => hsound.mono haged hhome
    · exact hwires _ hhome wire hwire

theorem flights_put (hfl : net.filter (fun wire => wire.call.carries i) = w.flights i)
    (hsent : o.sent.filter (fun wire => wire.call.carries i) = []) :
    System.flights { w.put p net o with sent := sent } i = w.flights i := by
  rw [System.flights, System.put]
  rw [filter_append, hfl, hsent, append_nil]

theorem pair_put (h : Pair cfg w x i)
    (hiss : ∀ id, (id, x) ∈ (w.pes p).issued → (id, x) ∈ o.mgr.issued) :
    Pair cfg { w.put p net o with sent := sent } x i := by
  refine h.mono fun ⟨q, hq⟩ => ⟨q, ?_⟩
  by_cases hqp : q = p
  · rw [hqp] at hq ⊢
    rw [put_pes_self]
    exact hiss i hq
  · rwa [put_pes_of_ne hqp]

/-- A function that is not about the element itself. -/
theorem Trail.mild (h : Trail cfg x i locs n w)
    (hm : Mild cfg x i (Aged cfg w i locs n) (HomeKnown cfg w i) (w.pes p) o) (hnet : net ⊆ w.net)
    (hfl : net.filter (fun wire => wire.call.carries i) = w.flights i) :
    Trail cfg x i locs n { w.put p net o with sent := sent } := by
  have hlocs : ∀ k, k ≤ n → locs k = locs k := fun _ _ => rfl
  have hhash : ∀ q, ((w.put p net o).pes q).hash i = (w.pes q).hash i := by
    intro q
    by_cases hq : q = p
    · rw [hq, put_pes_self, hm.hash]
    · rw [put_pes_of_ne hq]
  have hknows : Knows cfg x i locs n { w.put p net o with sent := sent } := by
    refine h.toKnows.put le_rfl h.pos hlocs hnet hm.idx2id ?_ (fun _ => hm.named)
      (fun k hk hkn => by omega) fun w' hw' wire hwire => ?_
    · refine hm.entry.imp_right fun ⟨place, hplace, haged, hnewer⟩ => ⟨place, hplace, ?_, hnewer⟩
      exact fun w' hw' => haged.mono le_rfl hlocs hw'
    · exact .inr ((hm.wires wire hwire).mono (fun place hp => hp.mono le_rfl hlocs hw') hw')
  refine { hknows with
    pos := h.pos
    pair := pair_put h.pair fun id => (hm.issued id).2
    record := fun q record hrec => h.record q record (hhash q ▸ hrec)
    host := ?_
    here := fun hhere => ?_ }
  · rw [flights_put hfl hm.wires.filter_carries]
    simpa only [hhash] using h.host
  · obtain ⟨⟨old, hold, hmoves⟩, hnamed⟩ := h.here (by simpa only [hhash] using hhere)
    by_cases hq : locs n = p
    · rw [hq] at hold hnamed ⊢
      rw [put_pes_self]
      refine ⟨?_, fun hc => hm.named (hnamed hc)⟩
      rcases hm.entry with heq | ⟨place, hplace, -, hnewer⟩
      · exact ⟨old, heq.trans hold, hmoves⟩
      · exact ⟨place, hplace, hmoves.trans (hnewer old hold)⟩
    · rw [put_pes_of_ne hq]
      exact ⟨⟨old, hold, hmoves⟩, hnamed⟩

/-- A processor learns of the newest place, and tells others. -/
theorem Knows.newest (h : Knows cfg x i locs n w) (hle : n ≤ n') (hpos : 0 < n)
    (hlocs : ∀ k, k ≤ n → locs' k = locs k) (hnet : net ⊆ w.net)
    (hentry : o.mgr.id2pe i = some ⟨locs' n', n'⟩)
    (hnamed : cfg.compressor = none → o.mgr.idx2id x ≠ none)
    (hleft : n < n' → n' = n + 1 ∧ p = locs n)
    (hwires : ∀ wire ∈ o.sent, wire.call.carries i = true ∨
      wire.call.Sound cfg i (fun place => place = ⟨locs' n', n'⟩) False) :
    Knows cfg x i locs' n' { w.put p net o with sent := sent } := by
  have hplace : ∀ w', Aged cfg w' i locs' n' ⟨locs' n', n'⟩ :=
    fun w' => .inl ⟨hpos.trans_le hle, le_rfl, rfl⟩
  refine h.put hle hpos hlocs hnet (fun _ => .inr ?_)
    (.inr ⟨_, hentry, fun w' _ => hplace w', fun old hold => ?_⟩) (fun hc _ => hnamed hc)
    (fun k hk hkn => ?_) fun w' _ wire hwire => ?_
  · rw [hentry]
    exact some_ne_none _
  · exact ((h.entry p old hold).moves_le).trans hle
  · obtain ⟨hn, hp⟩ := hleft (by omega)
    have hkn' : k = n := by omega
    rw [hkn', hlocs n le_rfl, ← hp, put_pes_self]
    exact ⟨⟨_, hentry, by dsimp only; omega⟩, hnamed⟩
  · refine (hwires wire hwire).imp_right fun hsound => hsound.mono (fun place hp => ?_) False.elim
    rw [hp]
    exact hplace w'

variable {s : LocMgr Idx}

theorem named_of_lookupID (h : lookupID cfg s x = some i) (hc : cfg.compressor = none) :
    s.idx2id x ≠ none := by
  rw [lookupID, hc] at h
  exact ne_none_iff_exists'.2 ⟨i, h⟩

/-- The element is on the processor, which tells others of it. -/
structure Settles (cfg : Config Idx) (x : Idx) (i p n : Nat) (o : Outcome Idx) : Prop where
  hash : o.mgr.hash i = some ⟨x, n⟩
  entry : o.mgr.id2pe i = some ⟨p, n⟩
  named : cfg.compressor = none → o.mgr.idx2id x ≠ none
  wires : AllCalls (Call.Sound cfg i (fun place => place = ⟨p, n⟩) False) o.sent

/-- The only record is on the processor on which the element settles. -/
theorem Trail.settled (hs : Settles cfg x i (locs n) n o)
    (hknows : Knows cfg x i locs n (w.put (locs n) net o))
    (hpos : 0 < n) (hpair : Pair cfg (w.put (locs n) net o) x i)
    (hnone : ∀ q, (w.pes q).hash i = none)
    (hfl : net.filter (fun wire => wire.call.carries i) = []) :
    Trail cfg x i locs n (w.put (locs n) net o) := by
  refine { hknows with
    pos := hpos
    pair := hpair
    record := fun q record hrec => ?_
    host := .inl ⟨?_, ?_⟩
    here := fun _ => ⟨⟨⟨locs n, n⟩, ?_, le_rfl⟩, fun hc => ?_⟩ }
  · by_cases hq : q = locs n
    · rw [hq, put_pes_self, hs.hash] at hrec
      cases hrec
      exact ⟨hq, rfl⟩
    · rw [put_pes_of_ne hq, hnone] at hrec
      cases hrec
  · rw [put_pes_self, hs.hash]
    exact some_ne_none _
  · rw [System.flights, System.put]
    rw [filter_append, hfl, hs.wires.filter_carries]
    rfl
  · rw [put_pes_self, hs.entry]
  · rw [put_pes_self]
    exact hs.named hc

/-! ### Creation -/

/-- Nobody knows of the identifier. -/
structure Absent (cfg : Config Idx) (i : Nat) (w : System Idx) : Prop where
  hash : ∀ p, (w.pes p).hash i = none
  id2pe : ∀ p, (w.pes p).id2pe i = none
  wires : AllCalls (Call.Sound cfg i (fun _ => False) False) w.net

/-- The element has not been created. -/
structure Unborn (cfg : Config Idx) (x : Idx) (w : System Idx) : Prop where
  issued : cfg.compressor = none → ∀ p id, (id, x) ∉ (w.pes p).issued
  absent : ∀ code, cfg.compressor = some code → Absent cfg (code.compress x) w

/-- An identifier that was not given out is nowhere. -/
theorem absent_of_fresh (h : IdsOk L cfg w) (hc : cfg.compressor = none)
    (hi : ∀ idx, ¬ Pair cfg w idx i) : Absent cfg i w := by
  refine ⟨fun p => ?_, fun p => ?_, fun wire hwire => ?_⟩
  · by_contra hne
    obtain ⟨record, hrec⟩ := ne_none_iff_exists'.1 hne
    exact hi _ ((h.tables p).hash i record hrec)
  · by_contra hne
    obtain ⟨place, hplace⟩ := ne_none_iff_exists'.1 hne
    obtain ⟨idx, hpair⟩ := (h.tables p).id2pe i place hplace
    exact hi idx hpair
  · have hin := h.wires wire hwire
    cases hcall : wire.call with
    | deliver | insertElement | reclaimRemote => exact trivial
    | requestLocationIdx => exact hc
    | updateLocationIdx idx | immigrate idx =>
      rw [hcall] at hin
      rintro rfl
      exact hi idx hin
    | updateLocation id nowOn | requestLocation id peToTell =>
      rw [hcall] at hin
      rintro rfl
      exact hin.elim hi

/-- A new record for an identifier that nobody knows. -/
theorem Trail.born (h : Absent cfg i w) (hnet : net ⊆ w.net) (hs : Settles cfg x i p 1 o)
    (hpair : Pair cfg (w.put p net o) x i)
    (hidx : cfg.compressor = none → ∀ q, (w.pes q).idx2id x ≠ some i)
    (hcreator : cfg.compressor = none → homePeId cfg i = p) :
    Trail cfg x i (fun _ => p) 1 (w.put p net o) := by
  have hplace : Aged cfg (w.put p net o) i (fun _ => p) 1 ⟨p, 1⟩ := .inl ⟨Nat.one_pos, le_rfl, rfl⟩
  have hsub : AllCalls (Call.Sound cfg i (fun _ => False) False) net := h.wires.subset hnet
  refine .settled hs ⟨fun q place hq => ?_, fun k hk hk' => ?_, fun hc q hq => ?_,
    fun hc k hk hk' => ?_, hcreator,
    fun wire hwire => ?_⟩ Nat.one_pos hpair h.hash hsub.filter_carries
  · by_cases hqp : q = p
    · rw [hqp, put_pes_self, hs.entry] at hq
      cases hq
      exact hplace
    · rw [put_pes_of_ne hqp, h.id2pe] at hq
      cases hq
  · omega
  · by_cases hqp : q = p
    · rw [hqp, put_pes_self, hs.entry]
      exact some_ne_none _
    · rw [put_pes_of_ne hqp] at hq
      exact absurd hq (hidx hc q)
  · omega
  · rcases mem_append.1 hwire with hwire | hwire
    · exact .inr ((hsub wire hwire).mono (fun _ => False.elim) False.elim)
    · refine .inr ((hs.wires wire hwire).mono (fun place hp => ?_) False.elim)
      rw [hp]
      exact hplace

variable (cfg x i w) in
/-- The identifier is the only one that was given out for the index. -/
def OnlyID : Prop :=
  cfg.compressor = none → ∀ p id, (id, x) ∈ (w.pes p).issued → id = i

theorem Trail.pair_only (h : Trail cfg x i locs n w) (honly : OnlyID cfg x i w) {id : Nat}
    (hid : Pair cfg w x id) : id = i :=
  hid.id_unique (fun hc ⟨q, hq⟩ _ => honly hc q id hq) h.pair

theorem Unborn.not_pair (h : Unborn cfg x w) (hc : cfg.compressor = none) (id : Nat) :
    ¬ Pair cfg w x id := by
  rw [Pair, hc]
  rintro ⟨p, hp⟩
  exact h.issued hc p id hp

theorem Absent.mild (h : Absent cfg i w) (hnet : net ⊆ w.net)
    (hm : Mild cfg x i (fun _ => False) False (w.pes p) o) :
    Absent cfg i { w.put p net o with sent := sent } := by
  refine ⟨fun q => ?_, fun q => ?_, (h.wires.subset hnet).append hm.wires⟩
  · by_cases hq : q = p
    · rw [hq, put_pes_self, hm.hash, h.hash]
    · rw [put_pes_of_ne hq, h.hash]
  · by_cases hq : q = p
    · rw [hq, put_pes_self]
      rcases hm.entry with heq | ⟨place, -, hfalse, -⟩
      · rw [heq, h.id2pe]
      · exact hfalse.elim
    · rw [put_pes_of_ne hq, h.id2pe]

theorem unborn_initial : Unborn cfg x initialSystem :=
  ⟨nofun, fun _ _ => ⟨fun _ => rfl, fun _ => rfl, .nil⟩⟩

theorem Unborn.not_live (h : Unborn cfg x w) (hids : IdsOk L cfg w) (id : Nat) : ¬ w.Live x id := by
  intro hlive
  have hpair := hids.pair_of_live hlive
  cases hc : cfg.compressor with
  | none => exact h.not_pair hc id hpair
  | some code =>
    rw [Pair, hc] at hpair
    have habs := h.absent code hc
    rw [← hpair] at habs
    rcases hlive with ⟨p, record, hrec, -⟩ | ⟨pe, elements, moves, hwire⟩
    · rw [habs.hash] at hrec
      cases hrec
    · exact habs.wires _ hwire rfl

/-! ### Following the entries -/

/-- The processor to which a message for the identifier is passed on: the entry, or else the
home. -/
def nextHop (cfg : Config Idx) (w : System Idx) (id p : Nat) : Nat :=
  (lastKnown cfg (w.pes p) id).pe

/-- The processor holds the record, or is the target of a migration that is under way. -/
def System.Holds (w : System Idx) (id p : Nat) : Prop :=
  (w.pes p).hash id ≠ none ∨ ∃ idx elements moves, ⟨p, .immigrate idx id elements moves⟩ ∈ w.net

theorem Trail.holds (h : Trail cfg x i locs n w) : w.Holds i (locs n) := by
  rcases h.host with ⟨hhash, -⟩ | ⟨-, -, elements, hfl⟩
  · exact .inl hhash
  · exact .inr ⟨x, elements, n, mem_of_flights hfl⟩

/-- The next processor holds the element, or knows a later place. -/
theorem Trail.nextHop (h : Trail cfg x i locs n w) (hplace : (w.pes p).id2pe i = some place) :
    w.Holds i (nextHop cfg w i p) ∨
      ∃ next, (w.pes (nextHop cfg w i p)).id2pe i = some next ∧ place.moves < next.moves := by
  have hnext : Location.nextHop cfg w i p = place.pe := by
    rw [Location.nextHop, lastKnown, hplace]
    rfl
  rw [hnext]
  rcases h.entry p place hplace with ⟨hpos, hle, hpe⟩ | ⟨hzero, hpe, next, hknown, hpos⟩
  · rcases Nat.lt_or_eq_of_le hle with hlt | heq
    · rw [hpe]
      exact .inr (h.left _ hpos hlt)
    · rw [hpe, heq]
      exact .inl h.holds
  · rw [hpe]
    exact .inr ⟨next, hknown, by omega⟩

/-! ### Migration and insertion -/

variable [DecidableEq Idx] {toPe : Nat}

/-- What `emigrate` does to the element that leaves. -/
theorem emigrate_self (hident : cfg.identifier x i = i)
    (hrec : s.hash i = some ⟨x, n⟩) (hto : toPe ≠ p) (ho : emigrate cfg p s i toPe = some o) :
    o.mgr.hash i = none ∧ o.mgr.id2pe i = some ⟨toPe, n + 1⟩ ∧ lookupID cfg o.mgr x = some i ∧
      o.mgr.issued = s.issued ∧ ∃ elements wires,
      o.sent = ⟨toPe, .immigrate x i elements (n + 1)⟩ :: wires ∧
        AllCalls (Call.Sound cfg i (fun place => place = ⟨toPe, n + 1⟩) False) wires := by
  obtain ⟨record, hrecord', ⟨hself, -⟩ | ⟨-, rfl⟩⟩ := emigrate_cases ho
  · exact absurd hself hto
  · rw [hrec] at hrecord'
    cases hrecord'
    refine ⟨update_self .., update_self .., ?_, rfl, _, _, rfl,
      .append (informWires_sound fun _ => rfl) (homeWires_sound hident fun _ => rfl)⟩
    exact (lookupID_informed_self ..).trans (congrArg some hident)

/-- What `immigrate` does to the element that arrives. -/
theorem immigrate_self {elements : List Nat} (hident : cfg.identifier x i = i)
    (ho : immigrate cfg p s x i elements n = some o) :
    Settles cfg x i p n o ∧ o.mgr.issued = s.issued := by
  rw [immigrate_eq _ hident] at ho
  cases ho
  refine ⟨⟨update_self .., update_self .., named_of_lookupID (i := i) ?_,
    informWires_sound fun _ => rfl⟩, rfl⟩
  exact (lookupID_informed_self (withRec s i x n) x i ⟨p, n⟩).trans (congrArg some hident)

/-- The element leaves for another processor. -/
theorem Trail.emigrated (h : Trail cfg x i locs n w) {record : LocRec Idx}
    (hrecord : (w.pes p).hash i = some record) (hto : toPe ≠ p)
    (ho : emigrate cfg p (w.pes p) i toPe = some o) :
    Trail cfg x i (update locs (n + 1) toPe) (n + 1) (w.put p w.net o) := by
  obtain ⟨hp, rfl⟩ := h.record p record hrecord
  have hident : cfg.identifier x i = i := (pairRule cfg w).identifier x i h.pair
  obtain ⟨hhash, hentry, hlook, hiss, elements, wires, hsent, hwires⟩ :=
    emigrate_self hident hrecord hto ho
  have hlocs : ∀ k, k ≤ n → update locs (n + 1) toPe k = locs k :=
    fun k hk => update_of_ne (by omega) ..
  have hnew : update locs (n + 1) toPe (n + 1) = toPe := update_self ..
  have hnone : ∀ q, ((w.put p w.net o).pes q).hash i = none := by
    intro q
    by_cases hq : q = p
    · rw [hq, put_pes_self, hhash]
    · rw [put_pes_of_ne hq]
      by_contra hne
      obtain ⟨record, hrec⟩ := ne_none_iff_exists'.1 hne
      exact hq ((h.record q record hrec).1.trans hp.symm)
  have hfl : w.flights i = [] := by
    rcases h.host with ⟨-, hfl⟩ | ⟨hnone, -⟩
    · exact hfl
    · rw [hnone] at hrecord
      cases hrecord
  have hknows : Knows cfg x i (update locs (n + 1) toPe) (n + 1) (w.put p w.net o) := by
    refine h.toKnows.newest (Nat.le_succ n) h.pos hlocs (fun _ hwire => hwire)
      (by rw [hnew, hentry]) (named_of_lookupID hlook) (fun _ => ⟨rfl, hp⟩) fun wire hwire => ?_
    rw [hsent] at hwire
    rcases mem_cons.1 hwire with rfl | hwire
    · exact .inl (carries_immigrate ..)
    · rw [hnew]
      exact .inr (hwires wire hwire)
  refine { hknows with
    pos := Nat.succ_pos n
    pair := pair_put h.pair fun id hid => hiss ▸ hid
    record := fun q record hrec => ?_
    host := .inr ⟨hnone, Nat.succ_lt_succ h.pos, elements, ?_⟩
    here := fun hne => absurd (hnone _) hne }
  · rw [hnone] at hrec
    cases hrec
  · rw [System.flights, System.put]
    rw [filter_append, hsent, filter_cons, if_pos (carries_immigrate ..),
      hwires.filter_carries, hnew]
    change w.flights i ++ _ = _
    rw [hfl, nil_append]

/-- The element arrives. -/
theorem Trail.immigrated (h : Trail cfg x i locs n w) {before after : List (Wire Idx)}
    (hnet : w.net = before ++ wire :: after) (hwire : wire.call.carries i = true)
    (ho : receive cfg wire.dest (w.pes wire.dest) wire.call = some o) :
    Trail cfg x i locs n (w.put wire.dest (before ++ after) o) := by
  have hident : cfg.identifier x i = i := (pairRule cfg w).identifier x i h.pair
  -- the call is the only migration under way
  have hsplit : w.flights i = before.filter (fun wire => wire.call.carries i) ++
      wire :: after.filter fun wire => wire.call.carries i := by
    rw [System.flights, hnet, filter_append, filter_cons, if_pos hwire]
  obtain ⟨hnone, hn, elements, hfl⟩ : (∀ p, (w.pes p).hash i = none) ∧ 1 < n ∧
      ∃ elements, w.flights i = [⟨locs n, .immigrate x i elements n⟩] := by
    rcases h.host with ⟨-, hfl⟩ | htravel
    · rw [hfl] at hsplit
      simp at hsplit
    · exact htravel
  rw [hfl] at hsplit
  obtain ⟨hbefore, hrest⟩ : before.filter (fun wire => wire.call.carries i) = [] ∧
      [⟨locs n, .immigrate x i elements n⟩] = wire :: after.filter fun wire =>
          wire.call.carries i := by
    cases hb : before.filter (fun wire => wire.call.carries i) with
    | nil =>
      rw [hb] at hsplit
      exact ⟨rfl, hsplit⟩
    | cons a l =>
      rw [hb] at hsplit
      simp at hsplit
  obtain ⟨rfl, hafter⟩ := List.cons.inj hrest
  obtain ⟨hs, hiss⟩ := immigrate_self hident ho
  have hsub : before ++ after ⊆ w.net := mem_of_mem_rest hnet
  have hknows : Knows cfg x i locs n (w.put (locs n) (before ++ after) o) :=
    h.toKnows.newest le_rfl h.pos (fun _ _ => rfl) hsub hs.entry hs.named (fun hlt => by omega)
      fun wire hwire => .inr (hs.wires wire hwire)
  refine .settled hs hknows h.pos (pair_put h.pair fun id hid => hiss ▸ hid) hnone ?_
  rw [filter_append, hbefore, ← hafter]
  rfl

theorem addedNew_self (hident : cfg.identifier x i = i) (mgr : Nat) :
    Settles cfg x i p n (addedNew cfg p s mgr x i n) :=
  ⟨update_self .., update_self ..,
    named_of_lookupID ((lookupID_informed_self (withRec s i x n) x i ⟨p, n⟩).trans
      (congrArg some hident)),
    .append (informWires_sound fun _ => rfl) (homeWires_sound hident fun _ => rfl)⟩

/-- The insertion of an index without an identifier starts a trail, under a new identifier. -/
theorem Trail.founded (hids : IdsOk L cfg w) (hlook : lookupID cfg (w.pes p) x = none)
    (hcnt : (w.pes p).idCounter < 2 ^ 24) (hbits : (p + 1) * 2 ^ 24 ≤ 2 ^ L.elementBits)
    (hnet : net ⊆ w.net) (ho : insertElement cfg p (w.pes p) mgr x = some o) :
    Trail cfg x (newID p (w.pes p)) (fun _ => p) 1 (w.put p net o) ∧
      o.mgr.issued = (w.pes p).issued ++ [(newID p (w.pes p), x)] := by
  have hc : cfg.compressor = none := compressor_of_lookupID hlook
  have hfresh : ∀ idx, ¬ Pair cfg w idx (newID p (w.pes p)) := by
    intro idx hpair
    rw [Pair, hc] at hpair
    exact hids.newID_fresh hcnt hbits idx hpair
  have habs : Absent cfg (newID p (w.pes p)) w := absent_of_fresh hids hc hfresh
  have hhome : homePeId cfg (newID p (w.pes p)) = p := by
    rw [homePeId, hc, newID_eq hcnt hbits]
    dsimp only
    omega
  rcases inserted ho with ⟨hplace⟩ | @⟨s', id, _, hid, -, hadd⟩
  · rw [hlook] at hplace
    cases hplace
  rcases hid with ⟨hid, -⟩ | ⟨-, hid, hs⟩
  · rw [hlook] at hid
    cases hid
  rw [← hid] at habs hhome hfresh ⊢
  have hs' : s' = { withID p (w.pes p) x with idx2id := s'.idx2id } := by
    rw [hs]
    exact insertID_eq ..
  have hiss : s'.issued = (w.pes p).issued ++ [(id, x)] := by
    rw [hs', hid]
    rfl
  rcases hadd with @⟨record, hrec⟩ | @⟨moves, -, hmoves⟩
  · rw [hs'] at hrec
    exact absurd (habs.hash p) (by rw [show (w.pes p).hash id = some record from hrec]; simp)
  · have hmoves : moves = 1 := by
      rw [hmoves, hs']
      show ((w.pes p).id2pe id |>.map Place.moves).getD 0 + 1 = 1
      rw [habs.id2pe]
      rfl
    rw [hmoves]
    have hident : cfg.identifier x id = id := by rw [Config.identifier, hc]
    refine ⟨.born habs hnet (addedNew_self hident mgr) ?_ (fun _ q hq => ?_) fun _ => hhome, hiss⟩
    · rw [Pair, hc]
      refine ⟨p, ?_⟩
      rw [put_pes_self, show (addedNew cfg p s' mgr x id 1).mgr.issued = _ from hiss]
      exact mem_append_right _ (mem_singleton.2 rfl)
    · exact hfresh x ((hids.tables q).idx2id x id hq)

theorem Unborn.insert_compressed (h : Unborn cfg x w) (hc : cfg.compressor = some code)
    (hnet : net ⊆ w.net) (ho : insertElement cfg p (w.pes p) mgr x = some o) :
    Trail cfg x (code.compress x) (fun _ => p) 1 (w.put p net o) := by
  have habs := h.absent code hc
  have hlook : lookupID cfg (w.pes p) x = some (code.compress x) := by rw [lookupID, hc]
  have hident : cfg.identifier x (code.compress x) = code.compress x := by
    rw [Config.identifier, hc]
  have hcne : cfg.compressor ≠ none := by rw [hc]; exact some_ne_none _
  rcases inserted ho with ⟨hplace⟩ | @⟨s', id, _, hid, -, hadd⟩
  · rw [hlook, bind_some, habs.id2pe] at hplace
    cases hplace
  · obtain ⟨rfl, rfl⟩ : id = code.compress x ∧ s' = w.pes p := by
      rcases hid with ⟨hid, hs⟩ | ⟨hid, -⟩
      · rw [hlook] at hid
        exact ⟨(some.inj hid).symm, hs⟩
      · rw [hlook] at hid
        cases hid
    rcases hadd with ⟨hrec⟩ | ⟨-, rfl⟩
    · rw [habs.hash] at hrec
      cases hrec
    · rw [habs.id2pe]
      refine .born habs hnet (addedNew_self hident mgr) ?_ hcne.elim hcne.elim
      rw [Pair, hc]

/-- The insertion of an element that has not been created makes its record. -/
theorem Unborn.insertElement (h : Unborn cfg x w) (hids : IdsOk L cfg w) {e : Event Idx}
    (hroom : RoomForID L cfg w e) (he : e.inserts = some (p, x)) (hnet : net ⊆ w.net)
    (ho : insertElement cfg p (w.pes p) mgr x = some o) :
    ∃ i, Trail cfg x i (fun _ => p) 1 (w.put p net o) ∧ OnlyID cfg x i (w.put p net o) := by
  cases hc : cfg.compressor with
  | some code =>
    refine ⟨_, h.insert_compressed hc hnet ho, fun hc' => ?_⟩
    rw [hc] at hc'
    cases hc'
  | none =>
    have hlook : lookupID cfg (w.pes p) x = none := by
      rw [lookupID, hc]
      by_contra hne
      obtain ⟨id, hid⟩ := ne_none_iff_exists'.1 hne
      exact h.not_pair hc id ((hids.tables p).idx2id x id hid)
    obtain ⟨hcnt, hbits⟩ := hroom p x he hlook
    obtain ⟨htrail, hiss⟩ := Trail.founded hids hlook hcnt hbits hnet ho
    refine ⟨_, htrail, fun _ q id hid => ?_⟩
    by_cases hq : q = p
    · rw [hq, put_pes_self, hiss] at hid
      rcases mem_append.1 hid with hid | hid
      · exact absurd hid (h.issued hc p id)
      · exact (Prod.mk.inj (mem_singleton.1 hid)).1
    · rw [put_pes_of_ne hq] at hid
      exact absurd hid (h.issued hc q id)

/-! ## Runs -/

/-- The conditions on a step. Of the element it is known that it is created once and never
destroyed; identifiers are given out while there is room; no processor is told of a place older than
the one it knows; and, with a compressor, nobody guesses that the element is at home while the home
knows nothing. -/
structure Followable (L : IdLayout) (cfg : Config Idx) (x : Idx) (w : System Idx) (e : Event Idx) :
    Prop where
  once : Founds cfg w e x → ∀ id, ¬ w.Live x id
  alive : ∀ p mgr id record, e = .destroy p mgr id → (w.pes p).hash id = some record →
    record.idx ≠ x
  room : RoomForID L cfg w e
  newer : ∀ p id nowOn old, Pair cfg w x id → (e = .receive ⟨p, .updateLocationIdx x id nowOn⟩ ∨
    e = .receive ⟨p, .updateLocation id nowOn⟩) → (w.pes p).id2pe id = some old →
    old.moves ≤ nowOn.moves
  guess : ∀ code, cfg.compressor = some code → ∀ p, e.delivers x p →
    (w.pes p).hash (code.compress x) = none → (w.pes p).id2pe (code.compress x) = none →
    cfg.home x ≠ p → HomeKnown cfg w (code.compress x)

variable {w' : System Idx} {e : Event Idx}

/-- The invariant: the element has not been created, or it has left a trail. -/
def Tracked (cfg : Config Idx) (x : Idx) (w : System Idx) : Prop :=
  Unborn cfg x w ∨ ∃ i locs n, Trail cfg x i locs n w ∧ OnlyID cfg x i w

/-- Before the creation a step on other elements tells nothing. -/
theorem Absent.aside (hc : cfg.compressor = some code)
    (h : Absent cfg (code.compress x) w) (hf : Followable L cfg x w e)
    (hinquired : Inquired cfg (fun idx => idx ≠ x) w) (hins : ∀ p, e.inserts ≠ some (p, x))
    (hstep : Step cfg w e w') : Aside cfg x (code.compress x) (fun _ => False) False w e := by
  have hpair : ∀ idx, code.compress idx = code.compress x → idx = x := by
    intro idx hidx
    rw [← code.decompress_compress idx, hidx, code.decompress_compress]
  refine ⟨fun p => ⟨fun record hrec => ?_, fun place hplace => ?_, fun idx hid => ?_,
    fun hc' => ?_⟩, fun idx hid => ?_, fun code' hc' => ?_, fun p he hhash hplace hhome => ?_,
    False.elim, fun wire he => ?_, fun p idx he => ?_, fun p nowOn old he hold => ?_,
    fun ⟨p, he, _⟩ => hins p he, fun p id toPe he => .inl ?_, fun p mgr id he => ?_⟩
  · rw [h.hash] at hrec
    cases hrec
  · rw [h.id2pe] at hplace
    cases hplace
  · rw [lookupID, hc] at hid
    exact hpair idx (some.inj hid)
  · rw [hc] at hc'
    cases hc'
  · rw [Pair, hc] at hid
    exact hpair idx hid.symm
  · exact homePeId_compress hc x
  · rw [homePeId_compress hc] at hhome
    obtain ⟨place, hknown, -⟩ := hf.guess code hc p he hhash hplace hhome
    rw [h.id2pe] at hknown
    cases hknown
  · exact h.wires wire (hstep.wire_mem he)
  · exact hinquired.addressed ⟨p, .reclaimRemote idx⟩ (hstep.wire_mem he)
  · rw [h.id2pe] at hold
    cases hold
  · subst he
    cases hstep with
    | emigrate hpe hto ho =>
      obtain ⟨record, hrec, -⟩ := emigrate_cases ho
      rintro rfl
      rw [h.hash] at hrec
      cases hrec
  · subst he
    cases hstep with
    | destroy hpe hmgr ho =>
      obtain ⟨record, hrec, -⟩ := reclaim_cases ho
      rintro rfl
      rw [h.hash] at hrec
      cases hrec

/-- The element neither arrives nor leaves. -/
structure Event.Passes (e : Event Idx) (i : Nat) : Prop where
  call : ∀ wire, e = .receive wire → wire.call.carries i = false
  move : ∀ p id toPe, e = .emigrate p id toPe → id ≠ i ∨ toPe = p

theorem Trail.call_sound (h : Trail cfg x i locs n w) (hpass : e.Passes i) (hstep : Step cfg w e w')
    (wire : Wire Idx) (he : e = .receive wire) :
    wire.call.Sound cfg i (Aged cfg w i locs n) (HomeKnown cfg w i) := by
  refine (h.wires wire (hstep.wire_mem he)).resolve_left ?_
  rw [hpass.call wire he]
  exact Bool.false_ne_true

/-- The element arrives, it leaves, or the step is not about it. -/
theorem Trail.step_of_aside (h : Trail cfg x i locs n w) (hids : IdsOk L cfg w)
    (hroom : RoomForID L cfg w e)
    (haside : e.Passes i → Aside cfg x i (Aged cfg w i locs n) (HomeKnown cfg w i) w e)
    (hstep : Step cfg w e w') : ∃ locs' n', Trail cfg x i locs' n' w' := by
  by_cases hcall : ∀ wire, e = .receive wire → wire.call.carries i = false
  · by_cases hmove : ∀ p id toPe, e = .emigrate p id toPe → id ≠ i ∨ toPe = p
    · obtain ⟨p, net, o, sent, rfl, hnet, hfl, hm⟩ := step_mild hids (haside ⟨hcall, hmove⟩) hroom
        (fun hc => by have := h.pair; rwa [Pair, hc] at this) hstep
      exact ⟨locs, n, h.mild hm hnet hfl⟩
    · simp only [not_forall, not_or, not_not] at hmove
      obtain ⟨p, id, toPe, rfl, rfl, hto⟩ := hmove
      cases hstep with
      | emigrate hpe hpe' ho =>
        obtain ⟨record, hrec, -⟩ := emigrate_cases ho
        exact ⟨_, _, h.emigrated hrec hto ho⟩
  · simp only [not_forall, Bool.not_eq_false] at hcall
    obtain ⟨wire, rfl, hwire⟩ := hcall
    cases hstep with
    | receive hnet ho => exact ⟨locs, n, h.immigrated hnet hwire ho⟩

section Steps

variable (hids : IdsOk L cfg w) (hinquired : Inquired cfg (fun idx => idx ≠ x) w)
  (hf : Followable L cfg x w e)
  (hstep : Step cfg w e w')

include hids hinquired hf hstep

/-- Until the element is inserted it stays unknown; its insertion starts the trail. -/
theorem Unborn.step (h : Unborn cfg x w) : Tracked cfg x w' := by
  by_cases hins : ∃ p, e.inserts = some (p, x)
  · obtain ⟨p, hp⟩ := hins
    obtain ⟨mgr, net, o, ho, hnet, rfl⟩ := hstep.inserts hp
    obtain ⟨i, hi⟩ := h.insertElement hids hf.room hp hnet ho
    exact .inr ⟨i, _, _, hi⟩
  · rw [not_exists] at hins
    refine .inl ⟨fun hc p id hid => ?_, fun code hc => ?_⟩
    · rcases hids.issued_step hstep hid with hid | ⟨q, hq, -⟩
      · exact h.issued hc p id hid
      · exact hins q hq
    · have habs := h.absent code hc
      obtain ⟨p, net, o, sent, rfl, hnet, -, hm⟩ :=
        step_mild (x := x) hids (habs.aside hc hf hinquired hins hstep) hf.room
          (fun hc' => by rw [hc] at hc'; cases hc') hstep
      exact habs.mild hnet hm

/-- A step that is not about the element itself. -/
theorem Trail.aside (h : Trail cfg x i locs n w) (hpass : e.Passes i) :
    Aside cfg x i (Aged cfg w i locs n) (HomeKnown cfg w i) w e where
  grounded := h.grounded hids
  pair idx := h.pair_eq hids
  home code := h.home_eq
  guess p he hhash hplace hhome := by
    cases hc : cfg.compressor with
    | none => exact h.homeKnown hc
    | some code =>
      have hi : i = code.compress x := by
        have hpair := h.pair
        rwa [Pair, hc] at hpair
      rw [hi] at hhash hplace hhome ⊢
      rw [homePeId_compress hc] at hhome
      exact hf.guess code hc p he hhash hplace hhome
  atHome := Aged.guess
  call := h.call_sound hpass hstep
  reclaim p idx he := hinquired.addressed ⟨p, .reclaimRemote idx⟩ (hstep.wire_mem he)
  newer p nowOn old he := hf.newer p i nowOn old h.pair he
  insert hfounds := hf.once hfounds i h.live
  emigrate := hpass.move
  destroy p mgr id he := by
    have he' := he
    subst he'
    cases hstep with
    | destroy hpe hmgr ho =>
      obtain ⟨record, hrec, -⟩ := reclaim_cases ho
      rintro rfl
      exact hf.alive p mgr _ record rfl hrec (by rw [(h.record p record hrec).2])

theorem Trail.step (h : Trail cfg x i locs n w) : ∃ locs' n', Trail cfg x i locs' n' w' :=
  h.step_of_aside hids hf.room (h.aside hids hinquired hf hstep) hstep

end Steps

/-- While the element exists no other identifier is given out for its index. -/
theorem OnlyID.step (h : OnlyID cfg x i w) (hlive : w.Live x i) (hids : IdsOk L cfg w)
    (hf : Followable L cfg x w e) (hstep : Step cfg w e w') : OnlyID cfg x i w' := by
  intro hc p id hid
  rcases hids.issued_step hstep hid with hid | hissues
  · exact h hc p id hid
  · exact absurd hlive (hf.once (founds_of_issues hissues) i)

theorem tracked_of_run {es : List (Event Idx)}
    (hrun : Run (fun w e w' => Step cfg w e w' ∧ Followable L cfg x w e) initialSystem es w) :
    IdsOk L cfg w ∧ Tracked cfg x w := by
  have h : IdsOk L cfg w ∧ Inquired cfg (fun idx => idx ≠ x) w ∧ Tracked cfg x w := by
    refine hrun.invariant (P := fun w => IdsOk L cfg w ∧ Inquired cfg (fun idx => idx ≠ x) w ∧
        Tracked cfg x w) ⟨idsOk_initial, inquired_initial, .inl unborn_initial⟩
      fun w e w' ⟨hids, hinquired, htracked⟩ ⟨hstep, hf⟩ => ?_
    refine ⟨hids.step hf.room hstep, inquired_of_step hids hf.room hinquired hf.alive hstep, ?_⟩
    rcases htracked with hun | ⟨i, locs, n, htrail, honly⟩
    · exact hun.step hids hinquired hf hstep
    · obtain ⟨locs', n', h'⟩ := htrail.step hids hinquired hf hstep
      exact .inr ⟨i, locs', n', h', honly.step htrail.live hids hf hstep⟩
  exact ⟨h.1, h.2.2⟩

omit [DecidableEq Idx] in
/-- The entries lead along the trail to the element. -/
theorem Trail.route (h : Trail cfg x i locs n w) (hp : (w.pes p).id2pe i ≠ none) :
    ∃ path, IsRoute (Location.nextHop cfg w i) (w.Holds i) p path := by
  -- the rank of a processor is the age of what it knows
  let rank : Nat → Nat := fun q => (((w.pes q).id2pe i).map Place.moves).getD 0
  have hrank : ∀ q place, (w.pes q).id2pe i = some place → rank q = place.moves := by
    intro q place hq
    show (((w.pes q).id2pe i).map Place.moves).getD 0 = _
    rw [hq]
    rfl
  have hbound : ∀ q, (w.pes q).id2pe i ≠ none → rank q ≤ n := by
    intro q hq
    obtain ⟨place, hplace⟩ := ne_none_iff_exists'.1 hq
    rw [hrank q place hplace]
    exact (h.entry q place hplace).moves_le
  have hstep : ∀ q, (w.pes q).id2pe i ≠ none → ¬ w.Holds i q →
      w.Holds i (Location.nextHop cfg w i q) ∨
        (w.pes (Location.nextHop cfg w i q)).id2pe i ≠ none ∧
          rank q < rank (Location.nextHop cfg w i q) := by
    intro q hq _
    obtain ⟨place, hplace⟩ := ne_none_iff_exists'.1 hq
    rw [hrank q place hplace]
    refine (h.nextHop hplace).imp_right fun ⟨next, hnext, hlt⟩ => ?_
    rw [hrank _ next hnext]
    exact ⟨by rw [hnext]; exact some_ne_none _, hlt⟩
  obtain ⟨path, hpath, -⟩ := exists_route hbound hstep hp
  exact ⟨path, hpath⟩

/-- Following the entries from a processor that has one leads to the element, and to no processor
twice. -/
theorem forwarding_reaches (L : IdLayout) (cfg : Config Idx) (x : Idx) {es : List (Event Idx)}
    {w : System Idx}
    (hrun : Run (fun w e w' => Step cfg w e w' ∧ Followable L cfg x w e) initialSystem es w)
    {id : Nat} (hlive : w.Live x id) {p : Nat} (hp : (w.pes p).id2pe id ≠ none) :
    ∃ path, IsRoute (nextHop cfg w id) (w.Holds id) p path := by
  obtain ⟨hids, hun | ⟨i, locs, n, htrail, honly⟩⟩ := tracked_of_run hrun
  · exact absurd hlive (hun.not_live hids id)
  obtain rfl : id = i := htrail.pair_only honly (hids.pair_of_live hlive)
  exact htrail.route hp

/-- Three processors, and one array whose indices are numbers and have their home on processor 0. -/
def threePes : Config Nat := ⟨3, fun _ => 0, [0], none, 0, fun _ => by decide⟩

/-- The identifier of the first element that processor 1 creates. -/
def firstOfOne : Nat := 2 ^ 24 + 1

/-- An element is created on processor 1 and moves to processor 2. -/
def moveOnce : List (Event Nat) := [.insert 1 0 5, .emigrate 1 firstOfOne 2]

theorem followable_create : Followable defaultLayout threePes 5 initialSystem (.insert 1 0 5) := by
  refine ⟨fun _ => not_live_initial, nofun, ?_, fun _ _ _ _ _ h => ?_, nofun⟩
  · rintro pe idx ⟨⟩ -
    decide
  · rcases h with h | h <;> cases h

theorem followable_move (w : System Nat) :
    Followable defaultLayout threePes 5 w (.emigrate 1 firstOfOne 2) := by
  refine ⟨fun ⟨p, hp, _⟩ => (nomatch hp), nofun, ?_, fun _ _ _ _ _ h => ?_, nofun⟩
  · rintro pe idx ⟨⟩
  · rcases h with h | h <;> cases h

theorem forwarding_reaches_moveOnce :
    ∃ w, Run (fun w e w' => Step threePes w e w' ∧ Followable defaultLayout threePes 5 w e)
        initialSystem moveOnce w ∧ w.Live 5 firstOfOne ∧ (w.pes 1).id2pe firstOfOne ≠ none ∧
      ∃ path, IsRoute (nextHop threePes w firstOfOne) (w.Holds firstOfOne) 1 path := by
  have hexec : ((initialSystem : System Nat).execAll threePes moveOnce).any (fun w =>
      (w.pes 1).id2pe firstOfOne = some ⟨2, 2⟩ ∧
        (⟨2, .immigrate 5 firstOfOne [0] 2⟩ : Wire Nat) ∈ w.net) = true := by
    decide +kernel
  obtain ⟨w, hw, hentry, hwire⟩ := Run.exists_of_any hexec
  obtain ⟨w1, hcreate, hw⟩ := bind_eq_some_iff.1 hw
  obtain ⟨w2, hmove, hw⟩ := bind_eq_some_iff.1 hw
  cases hw
  have hrun : Run (fun w e w' => Step threePes w e w' ∧ Followable defaultLayout threePes 5 w e)
      initialSystem moveOnce w :=
    (Run.single ⟨step_of_exec hcreate, followable_create⟩).snoc
      ⟨step_of_exec hmove, followable_move w1⟩
  have hlive : w.Live 5 firstOfOne := .inr ⟨2, [0], 2, hwire⟩
  have hknown : (w.pes 1).id2pe firstOfOne ≠ none := by
    rw [hentry]
    exact some_ne_none _
  exact ⟨w, hrun, hlive, hknown, forwarding_reaches defaultLayout threePes 5 hrun hlive hknown⟩

/-- The same element moves on to processor 0, while processor 2 is told late by the home that it is
on processor 1. -/
def lateReply : List (Event Nat) :=
  [.insert 1 0 5, .receive ⟨0, .updateLocationIdx 5 firstOfOne ⟨1, 1⟩⟩, .send 2 0 5 0 .queue,
    .receive ⟨0, .requestLocationIdx 5 2⟩, .emigrate 1 firstOfOne 2,
    .receive ⟨2, .immigrate 5 firstOfOne [0] 2⟩, .emigrate 2 firstOfOne 0,
    .receive ⟨0, .immigrate 5 firstOfOne [0] 3⟩,
    .receive ⟨2, .updateLocationIdx 5 firstOfOne ⟨1, 1⟩⟩]

/-- The element is on processor 0, and processors 1 and 2 send its messages to each other. -/
def System.looping (w : System Nat) : Bool :=
  (w.pes 0).hash firstOfOne = some ⟨5, 3⟩ ∧ (w.pes 1).hash firstOfOne = none ∧
    (w.pes 2).hash firstOfOne = none ∧ (w.pes 1).id2pe firstOfOne = some ⟨2, 2⟩ ∧
    (w.pes 2).id2pe firstOfOne = some ⟨1, 1⟩ ∧ ∀ wire ∈ w.net, wire.call.carries firstOfOne = false

theorem forwarding_loops : ∃ w, Run (Step threePes) initialSystem lateReply w ∧
    w.Live 5 firstOfOne ∧
      (w.pes 1).id2pe firstOfOne ≠ none ∧
      ∀ path, ¬ IsRoute (nextHop threePes w firstOfOne) (w.Holds firstOfOne) 1 path := by
  have hexec : ((initialSystem : System Nat).execAll threePes lateReply).any System.looping =
      true := by
    decide +kernel
  obtain ⟨w, hw, hhost, hnone1, hnone2, hentry1, hentry2, hnet⟩ := Run.exists_of_any hexec
  have hholds : ∀ p, (w.pes p).hash firstOfOne = none → ¬ w.Holds firstOfOne p := by
    rintro p hp (hne | ⟨idx, elements, moves, hwire⟩)
    · exact hne hp
    · have hcarries := hnet _ hwire
      cases hcarries
  refine ⟨w, run_of_execAll hw, .inl ⟨0, _, hhost, rfl⟩, ?_, ?_⟩
  · rw [hentry1]
    exact some_ne_none _
  · refine not_isRoute_of_loop (b := 2) ?_ ?_ (hholds 1 hnone1) (hholds 2 hnone2)
    · rw [nextHop, lastKnown, hentry1]
      rfl
    · rw [nextHop, lastKnown, hentry2]
      rfl

end CharmRuntime.Location
