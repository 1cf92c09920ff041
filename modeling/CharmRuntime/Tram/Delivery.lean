import CharmRuntime.Tram.Sends
import CharmRuntime.Lib.Tables

/-!
# Items are carried to their destinations

What a router has to provide for a streamer over it to lose no item (`Carries`), and that it is
enough: in every run all items are in a buffer, in a message or with the client on their destination
(`Routed`, `routed_of_run`), and every message in flight can be received.
-/

set_option autoImplicit false

namespace CharmRuntime.Tram

open List Option

/-! ## Where the items are -/

/-- The buffers of a PE. -/
def Config.slots (cfg : Config) (pe : Nat) : Finset ((_ : Nat) × Nat) :=
  (Finset.range cfg.numDimensions).sigma fun dim =>
    Finset.range ((cfg.router pe).numBuffersPerDimension dim)

/-- The items of a buffer or a message. -/
def items (es : List Entry) : Multiset Item := ↑(es.map Entry.item)

@[simp] theorem items_nil : items [] = 0 := rfl

variable {es : List Entry}

@[simp] theorem items_append (es' : List Entry) : items (es ++ es') = items es + items es' := by
  rw [items, map_append, ← Multiset.coe_add]
  rfl

variable {e : Entry}

@[simp] theorem items_singleton : items [e] = {e.item} := rfl

theorem items_cons : items (e :: es) = {e.item} + items es := rfl

@[simp] theorem card_items : (items es).card = es.length := by simp [items]

variable {m : Message}

namespace System

variable (cfg : Config) (s : System)

/-- The items in the buffers of a PE. -/
def buffered (pe : Nat) : Multiset Item :=
  ∑ x ∈ cfg.slots pe, items ((s.streamers pe).dataBuffers x.1 x.2)

/-- The items in the messages in flight. -/
def flying : Multiset Item := (s.network.map fun m => items m.entries).sum

/-- The items that are somewhere. -/
def content : Multiset Item :=
  ∑ pe ∈ Finset.range cfg.numMembers,
    (s.buffered cfg pe + items (s.streamers pe).delivered) + s.flying

variable {cfg s} {pe dim idx : Nat} {t : System}

theorem buffered_congr
    (h : ∀ dim idx, (t.streamers pe).dataBuffers dim idx = (s.streamers pe).dataBuffers dim idx) :
    t.buffered cfg pe = s.buffered cfg pe :=
  Finset.sum_congr rfl fun x _ => by rw [h]

theorem buffered_pushEntry (hdim : dim < cfg.numDimensions)
    (hidx : idx < (cfg.router pe).numBuffersPerDimension dim) :
    (s.pushEntry pe dim idx e).buffered cfg pe = s.buffered cfg pe + {e.item} := by
  refine Lib.sum_eq_add_of_eq_off (a := ⟨dim, idx⟩) ?_ ?_ ?_
  · exact Finset.mem_sigma.2 ⟨Finset.mem_range.2 hdim, Finset.mem_range.2 hidx⟩
  · rintro ⟨i, j⟩ _ hne
    rw [dataBuffers_pushEntry, if_neg]
    rintro ⟨_, rfl, rfl⟩
    exact hne rfl
  · rw [dataBuffers_pushEntry, if_pos ⟨rfl, rfl, rfl⟩, items_append, items_singleton]

theorem buffered_clearBuffer (cfg : Config)
    (hslot : (s.streamers pe).dataBuffers dim idx ≠ [] → dim < cfg.numDimensions ∧
      idx < (cfg.router pe).numBuffersPerDimension dim) : s.buffered cfg pe =
      (s.clearBuffer pe dim idx).buffered cfg pe + items
      ((s.streamers pe).dataBuffers dim idx) := by
  by_cases hempty : (s.streamers pe).dataBuffers dim idx = []
  · rw [hempty, items_nil, add_zero]
    refine buffered_congr fun i j => ?_
    rw [dataBuffers_clearBuffer]
    split
    · obtain ⟨_, rfl, rfl⟩ := ‹_ ∧ _ ∧ _›
      exact hempty
    · rfl
  · obtain ⟨hdim, hidx⟩ := hslot hempty
    refine Lib.sum_eq_add_of_eq_off (a := ⟨dim, idx⟩) ?_ ?_ ?_
    · exact Finset.mem_sigma.2 ⟨Finset.mem_range.2 hdim, Finset.mem_range.2 hidx⟩
    · rintro ⟨i, j⟩ _ hne
      rw [dataBuffers_clearBuffer, if_neg]
      rintro ⟨_, rfl, rfl⟩
      exact hne rfl
    · rw [dataBuffers_clearBuffer, if_pos ⟨rfl, rfl, rfl⟩, items_nil, zero_add]

/-- What one PE has grows by some items, the rest stays the same. -/
theorem content_add (hpe : pe < cfg.numMembers) {x : Multiset Item}
    (hother : ∀ q ≠ pe, t.streamers q = s.streamers q) (hnetwork : t.network = s.network)
    (hself : t.buffered cfg pe + items (t.streamers pe).delivered =
      s.buffered cfg pe + items (s.streamers pe).delivered + x) : t.content cfg =
        s.content cfg + x := by
  have hsum := Lib.sum_eq_add_of_eq_off (Finset.mem_range.2 hpe)
    (g := fun q => t.buffered cfg q + items (t.streamers q).delivered)
    (f := fun q => s.buffered cfg q + items (s.streamers q).delivered)
    (fun q _ hq => by rw [buffered, buffered, hother q hq]) hself
  rw [content, hsum, content, flying, flying, hnetwork, add_right_comm]

theorem streamers_modify_of_ne {f : MeshStreamer → MeshStreamer} {q : Nat} (hq : q ≠ pe) :
    (s.modify pe f).streamers q = s.streamers q := by
  rw [modify_streamers, if_neg hq]

variable {q : Nat}

theorem delivered_pushEntry :
    ((s.pushEntry pe dim idx e).streamers q).delivered = (s.streamers q).delivered := by
  rw [pushEntry, modify_streamers]
  split
  · subst_vars
    rfl
  · rfl

theorem delivered_clearBuffer :
    ((s.clearBuffer pe dim idx).streamers q).delivered = (s.streamers q).delivered := by
  rw [clearBuffer, modify_streamers]
  split
  · subst_vars
    rfl
  · rfl

theorem content_pushEntry (hpe : pe < cfg.numMembers) (hdim : dim < cfg.numDimensions)
    (hidx : idx < (cfg.router pe).numBuffersPerDimension dim) :
    (s.pushEntry pe dim idx e).content cfg = s.content cfg + {e.item} := by
  refine content_add hpe (fun q hq => streamers_modify_of_ne hq) rfl ?_
  rw [buffered_pushEntry hdim hidx, delivered_pushEntry, add_right_comm]

theorem content_localDeliver (hpe : pe < cfg.numMembers) :
    (s.localDeliver pe e).content cfg = s.content cfg + {e.item} := by
  refine content_add hpe (fun q hq => streamers_modify_of_ne hq) rfl ?_
  have hbuf : (s.localDeliver pe e).buffered cfg pe = s.buffered cfg pe :=
    buffered_congr fun i j => by rw [localDeliver, modify_streamers, if_pos rfl]
  rw [hbuf, localDeliver, modify_streamers, if_pos rfl, items_append, items_singleton, add_assoc]

variable {final : Int}

theorem items_message :
    items (message cfg pe dim idx q final s).entries = items
    ((s.streamers pe).dataBuffers dim idx) := by
  rw [message, items, items, List.map_map]
  rfl

/-- A message takes what was in its buffer. -/
theorem content_sendMeshStreamerMessage
    (hslot : (s.streamers pe).dataBuffers dim idx ≠ [] →
      pe < cfg.numMembers ∧ dim < cfg.numDimensions ∧
      idx < (cfg.router pe).numBuffersPerDimension dim) :
    (s.sendMeshStreamerMessage cfg pe dim idx q final).content cfg = s.content cfg := by
  have hflying : (s.sendMeshStreamerMessage cfg pe dim idx q final).flying =
      s.flying + items ((s.streamers pe).dataBuffers dim idx) := by
    rw [flying, sendMeshStreamerMessage, map_append, sum_append, map_singleton, sum_singleton,
      items_message, flying]
  have hclear : s.content cfg =
      (s.clearBuffer pe dim idx).content cfg + items ((s.streamers pe).dataBuffers dim idx) := by
    have hbuf := buffered_clearBuffer cfg fun h => (hslot h).2
    by_cases hempty : (s.streamers pe).dataBuffers dim idx = []
    · -- nothing is sent; the PE may then be any number
      rw [hempty, items_nil, add_zero] at hbuf ⊢
      refine congrArg₂ (· + ·) (Finset.sum_congr rfl fun q _ => ?_) rfl
      rw [delivered_clearBuffer]
      by_cases hq : q = pe
      · rw [hq, hbuf]
      · rw [buffered, buffered, clearBuffer, streamers_modify_of_ne hq]
    · refine content_add (hslot hempty).1 (fun q hq => (streamers_modify_of_ne hq).symm) rfl ?_
      rw [hbuf, delivered_clearBuffer, add_right_comm]
  rw [content, hflying, hclear, content, ← add_assoc]
  rfl

theorem SameItems.content (h : SameItems s t) : t.content cfg = s.content cfg := by
  rw [System.content, System.content, flying, flying, h.network]
  refine congrArg (· + _) (Finset.sum_congr rfl fun q _ => ?_)
  rw [buffered, buffered, h.buffers, h.delivered]

theorem content_erase (hm : m ∈ s.network) :
    s.content cfg = { s with network := s.network.erase m }.content cfg + items m.entries := by
  have hperm := (perm_cons_erase hm).map fun m => items m.entries
  have hflying : s.flying = { s with network := s.network.erase m }.flying + items m.entries := by
    rw [flying, hperm.sum_eq, map_cons, sum_cons, add_comm]
    rfl
  rw [content, hflying, content, ← add_assoc]
  rfl

end System

/-! ## What a router provides -/

section Contract

variable (cfg : Config) (Ok : Nat → Nat → Nat → Nat → Prop)

/-- An item for `dest` that a PE sends along a dimension to `q` has at most `r` hops left: the
message is received on the destination, or `q` can route it on. `Ok q msgType dest r` says that an
item for `dest` that arrives on `q` in a message of this type has at most `r` hops left. -/
def Reaches (pe dest r dim q : Nat) : Prop :=
  q < cfg.numMembers ∧ ∃ r', r = r' + 1 ∧
    if (cfg.router pe).isMessagePersonalized dim then q = dest
    else Ok q ((cfg.router pe).determineMsgType dim) dest r'

variable {cfg Ok} in
theorem reaches_of_forward {pe dest r dim q : Nat} (hq : q < cfg.numMembers)
    (hforward : (cfg.router pe).isMessagePersonalized dim = false)
    (hok : Ok q ((cfg.router pe).determineMsgType dim) dest r) :
    Reaches cfg Ok pe dest (r + 1) dim q := by
  refine ⟨hq, r, rfl, ?_⟩
  rwa [hforward, if_neg Bool.false_ne_true]

variable {cfg Ok} in
theorem reaches_of_personalized {pe dest r dim : Nat} (hdest : dest < cfg.numMembers)
    (hpersonal : (cfg.router pe).isMessagePersonalized dim = true) :
    Reaches cfg Ok pe dest (r + 1) dim dest := by
  refine ⟨hdest, r, rfl, ?_⟩
  rw [hpersonal, if_pos rfl]

/-- A route names a buffer that exists, the PE that this buffer is sent to, and this PE is on the
way. -/
structure Leads (pe dest r : Nat) (route : Route) : Prop where
  dimension : route.dimension < cfg.numDimensions
  index : route.dimensionIndex < (cfg.router pe).numBuffersPerDimension route.dimension
  next : (cfg.router pe).nextPeAlongRoute route.dimension route.dimensionIndex = route.destinationPe
  reaches : Reaches cfg Ok pe dest r route.dimension route.destinationPe

/-- The routers carry items between PEs that are related by `From`, with at most `bound` hops. -/
structure Carries (From : Nat → Nat → Prop) (bound : Nat) : Prop where
  initial : ∀ {pe dest : Nat}, pe < cfg.numMembers → dest < cfg.numMembers → From pe dest →
    ∃ route, (cfg.router pe).determineInitialRoute dest = some route ∧
    Leads cfg Ok pe dest bound route
  forward : ∀ {pe msgType dest r : Nat}, pe < cfg.numMembers → dest < cfg.numMembers → dest ≠ pe →
    Ok pe msgType dest r → ∃ dimensionReceivedAlong,
      (cfg.router pe).dimensionReceived msgType = some dimensionReceivedAlong ∧
      ∃ route, (cfg.router pe).determineRoute dest dimensionReceivedAlong = some route ∧
      Leads cfg Ok pe dest r route

/-- An entry is in a buffer that it may be in. -/
structure Fits (bound pe dim idx : Nat) (e : Entry) : Prop where
  pe_lt : pe < cfg.numMembers
  dest_lt : e.item.destinationPe < cfg.numMembers
  dim_lt : dim < cfg.numDimensions
  idx_lt : idx < (cfg.router pe).numBuffersPerDimension dim
  named : (cfg.router pe).nextPeAlongRoute dim idx = e.named
  reaches : ∃ r, e.hops + r ≤ bound ∧
    Reaches cfg Ok pe e.item.destinationPe r dim ((cfg.router pe).nextPeAlongRoute dim idx)

/-- An entry is in a message that it may be in. -/
structure Arrives (bound : Nat) (m : Message) (e : Entry) : Prop where
  pe_lt : m.dest < cfg.numMembers
  dest_lt : e.item.destinationPe < cfg.numMembers
  named : m.dest = e.named
  hops : e.hops ≤ bound
  reaches : if m.personalized then m.dest = e.item.destinationPe
    else ∃ r, e.hops + r ≤ bound ∧ Ok m.dest m.msgType e.item.destinationPe r

/-- All items are on their way; `extra` are items that are somewhere but have not been inserted. -/
structure Routed (bound : Nat) (extra : Multiset Item) (s : System) : Prop where
  fits : ∀ pe dim idx, ∀ e ∈ (s.streamers pe).dataBuffers dim idx, Fits cfg Ok bound pe dim idx e
  arrives : ∀ m ∈ s.network, ∀ e ∈ m.entries, Arrives cfg Ok bound m e
  home : ∀ pe, ∀ e ∈ (s.streamers pe).delivered, e.item.destinationPe = pe ∧ e.hops ≤ bound
  number : ∀ pe, (s.streamers pe).numDataItemsBuffered = (s.buffered cfg pe).card
  total : s.content cfg = ↑s.inserted + extra

end Contract

namespace Routed

open Tram.System

variable {cfg : Config} {Ok : Nat → Nat → Nat → Nat → Prop} {From : Nat → Nat → Prop}
  {bound pe dim idx : Nat}
variable {extra : Multiset Item} {s t : System}

theorem init : Routed cfg Ok bound 0 System.init where
  fits := by simp [System.init, MeshStreamer.init]
  arrives := by simp [System.init]
  home := by simp [System.init, MeshStreamer.init]
  number pe := by simp [buffered, System.init, MeshStreamer.init]
  total := by simp [content, buffered, flying, System.init, MeshStreamer.init]

section Keep

variable (hs : Routed cfg Ok bound extra s)

include hs

theorem same (h : SameItems s t) : Routed cfg Ok bound extra t where
  fits pe dim idx e he := hs.fits pe dim idx e (h.buffers pe ▸ he)
  arrives m hm := hs.arrives m (h.network ▸ hm)
  home pe e he := hs.home pe e (h.delivered pe ▸ he)
  number pe := by rw [h.number, hs.number, buffered_congr fun i j => by rw [h.buffers]]
  total := by rw [h.content, hs.total, h.inserted]

/-- A buffer with an item is one of the buffers of a PE. -/
theorem slot (pe dim idx : Nat) (h : (s.streamers pe).dataBuffers dim idx ≠ []) :
    pe < cfg.numMembers ∧ dim < cfg.numDimensions ∧
    idx < (cfg.router pe).numBuffersPerDimension dim := by
  obtain ⟨e, he⟩ := exists_mem_of_ne_nil _ h
  have hfits := hs.fits pe dim idx e he
  exact ⟨hfits.pe_lt, hfits.dim_lt, hfits.idx_lt⟩

variable {e : Entry}

/-- The entries of a buffer may be in the message that it is sent in. -/
theorem arrives_message (final : Int)
    (he : e ∈ (message cfg pe dim idx ((cfg.router pe).nextPeAlongRoute dim idx) final s).entries) :
    Arrives cfg Ok bound
    (message cfg pe dim idx ((cfg.router pe).nextPeAlongRoute dim idx) final s) e := by
  obtain ⟨e', he', rfl⟩ := mem_map.1 he
  obtain ⟨-, hdest, -, -, hnamed, r, hbound, hlt, r', rfl, hreaches⟩ := hs.fits pe dim idx e' he'
  refine ⟨hlt, hdest, hnamed, by simp only; omega, ?_⟩
  by_cases hpersonal : (cfg.router pe).isMessagePersonalized dim = true
  · simpa [message, hpersonal] using hreaches
  · rw [if_neg hpersonal] at hreaches
    simp only [message, hpersonal]
    exact ⟨r', by omega, hreaches⟩

theorem send (final : Int) : Routed cfg Ok bound extra
      (s.sendMeshStreamerMessage cfg pe dim idx ((cfg.router pe).nextPeAlongRoute dim idx) final)
        where
  fits q i j e he := by
    have hsub : e ∈ (s.streamers q).dataBuffers i j := by
      rw [sendMeshStreamerMessage, dataBuffers_clearBuffer] at he
      split at he
      · cases he
      · exact he
    exact hs.fits q i j e hsub
  arrives m hm e he := by
    rcases mem_append.1 hm with hm | hm
    · exact hs.arrives m hm e he
    · rw [mem_singleton] at hm
      subst hm
      exact hs.arrives_message final he
  home q e he := by
    rw [sendMeshStreamerMessage, delivered_clearBuffer] at he
    exact hs.home q e he
  number q := by
    have hbuf := buffered_clearBuffer cfg fun h => (hs.slot pe dim idx h).2
    have hold := hs.number q
    rw [sendMeshStreamerMessage, clearBuffer, modify_streamers]
    by_cases hq : q = pe
    · subst hq
      rw [hbuf, Multiset.card_add, card_items] at hold
      simp only [if_true, hold, Nat.add_sub_cancel]
      rfl
    · rw [if_neg hq, hold]
      refine congrArg _ (buffered_congr fun i j => ?_)
      rw [streamers_modify_of_ne hq]
  total := by rw [content_sendMeshStreamerMessage (hs.slot pe dim idx), hs.total]; rfl

theorem emits (h : Emits cfg pe s t) : Routed cfg Ok bound extra t :=
  h.preserves (fun _ _ _ final hs => hs.send final) (fun _ _ h hs => hs.same h) hs

theorem pushEntry (he : Fits cfg Ok bound pe dim idx e) :
    Routed cfg Ok bound (extra + {e.item}) (s.pushEntry pe dim idx e) where
  fits q i j e' he' := by
    rw [dataBuffers_pushEntry] at he'
    split at he'
    · obtain ⟨rfl, rfl, rfl⟩ := ‹_ ∧ _ ∧ _›
      rcases mem_append.1 he' with he' | he'
      · exact hs.fits q i j e' he'
      · rw [mem_singleton] at he'
        exact he' ▸ he
    · exact hs.fits q i j e' he'
  arrives := hs.arrives
  home q e' he' := by
    rw [delivered_pushEntry] at he'
    exact hs.home q e' he'
  number q := by
    have hold := hs.number q
    by_cases hq : q = pe
    · subst hq
      rw [buffered_pushEntry he.dim_lt he.idx_lt, Multiset.card_add,
        Multiset.card_singleton, ← hold, System.pushEntry, modify_streamers, if_pos rfl]
    · have hsame : (s.pushEntry pe dim idx e).streamers q = s.streamers q :=
        streamers_modify_of_ne hq
      rw [hsame, hold]
      exact congrArg _ (buffered_congr fun i j => by rw [hsame]).symm
  total := by rw [content_pushEntry he.pe_lt he.dim_lt he.idx_lt, hs.total, add_assoc]; rfl

theorem localDeliver (hpe : pe < cfg.numMembers) (hdest : e.item.destinationPe = pe)
    (hhops : e.hops ≤ bound) : Routed cfg Ok bound (extra + {e.item}) (s.localDeliver pe e) := by
  have hbuffers (q : Nat) : ((s.localDeliver pe e).streamers q).dataBuffers =
      (s.streamers q).dataBuffers := by
    rw [System.localDeliver, modify_streamers]
    split
    · subst_vars
      rfl
    · rfl
  refine ⟨?_, hs.arrives, ?_, ?_, ?_⟩
  · intro q i j e' he'
    rw [hbuffers] at he'
    exact hs.fits q i j e' he'
  · intro q e' he'
    rw [System.localDeliver, modify_streamers] at he'
    split at he'
    · rcases mem_append.1 he' with he' | he'
      · subst_vars
        exact hs.home _ e' he'
      · rw [mem_singleton] at he'
        subst_vars
        exact ⟨rfl, hhops⟩
    · exact hs.home q e' he'
  · intro q
    have hsame : (s.localDeliver pe e).buffered cfg q = s.buffered cfg q :=
      buffered_congr fun i j => by rw [hbuffers]
    rw [hsame, ← hs.number q, System.localDeliver, modify_streamers]
    split
    · subst_vars
      rfl
    · rfl
  · rw [content_localDeliver hpe, hs.total, add_assoc]
    rfl

/-! ## The calls -/

theorem storeMessage {item : Item} {hops r : Nat} {route : Route} (hpe : pe < cfg.numMembers)
    (hdest : item.destinationPe < cfg.numMembers)
    (hlead : Leads cfg Ok pe item.destinationPe r route) (hbound : hops + r ≤ bound) :
    ∃ t, s.storeMessage cfg pe item hops route = some t ∧ Routed cfg Ok bound (extra + {item}) t ∧
      ∀ m ∈ s.network, m ∈ t.network := by
  obtain ⟨t, ht, hemits⟩ := storeMessage_spec s item hops hlead.dimension hlead.index hlead.next
  have hfits : Fits cfg Ok bound pe route.dimension route.dimensionIndex
      ⟨item, hops, route.destinationPe⟩ :=
    ⟨hpe, hdest, hlead.dimension, hlead.index, hlead.next, r, hbound,
      hlead.next.symm ▸ hlead.reaches⟩
  exact ⟨t, ht, (hs.pushEntry hfits).emits hemits, fun m hm => hemits.mem_network hm⟩

theorem receiveItems (hcarr : Carries cfg Ok From bound) {msgType : Nat} {es : List Entry}
    (hpe : pe < cfg.numMembers)
    (hes : ∀ e ∈ es, e.item.destinationPe < cfg.numMembers ∧ ∃ r,
      e.hops + r ≤ bound ∧ Ok pe msgType e.item.destinationPe r) :
    ∃ t, s.receiveItems cfg pe msgType es = some t ∧ Routed cfg Ok bound (extra + items es) t ∧
      ∀ m ∈ s.network, m ∈ t.network := by
  induction es generalizing s extra with
  | nil => exact ⟨s, rfl, by rwa [items_nil, add_zero], fun _ hm => hm⟩
  | cons e es ih =>
    obtain ⟨⟨hdest, r, hbound, hok⟩, hrest⟩ := forall_mem_cons.1 hes
    rw [items_cons, ← add_assoc, System.receiveItems]
    by_cases harr : e.item.destinationPe = pe
    · rw [if_pos harr]
      exact ih (hs.localDeliver hpe harr (by omega)) hrest
    · -- the route is found; the rest of the message is received after the item is stored
      obtain ⟨k, hk, route, hroute, hlead⟩ := hcarr.forward hpe hdest harr hok
      obtain ⟨u, hu, hrouted, hmem⟩ := hs.storeMessage hpe hdest hlead hbound
      obtain ⟨t, ht, hrouted', hmem'⟩ := ih hrouted hrest
      rw [if_neg harr, hk, bind_some, hroute, bind_some, hu, bind_some]
      exact ⟨t, ht, hrouted', fun m hm => hmem' m (hmem m hm)⟩

end Keep

/-- The items of a message in flight can be stored or delivered. -/
theorem receive (hcarr : Carries cfg Ok From bound) (hs : Routed cfg Ok bound 0 s)
    (hm : m ∈ s.network) (hpersonal : m.personalized = false) :
    ∃ t, s.receiveItems cfg m.dest m.msgType m.entries = some t ∧
      Routed cfg Ok bound (items m.entries) t ∧ m ∈ t.network := by
  have harrives := hs.arrives m hm
  by_cases hempty : m.entries = []
  · rw [hempty]
    exact ⟨s, rfl, hs, hm⟩
  · obtain ⟨e, he⟩ := exists_mem_of_ne_nil _ hempty
    have hes : ∀ e ∈ m.entries, e.item.destinationPe < cfg.numMembers ∧
        ∃ r, e.hops + r ≤ bound ∧ Ok m.dest m.msgType e.item.destinationPe r := by
      intro e he
      have hreaches := (harrives e he).reaches
      rw [hpersonal, if_neg Bool.false_ne_true] at hreaches
      exact ⟨(harrives e he).dest_lt, hreaches⟩
    obtain ⟨t, ht, hrouted, hmem⟩ := hs.receiveItems hcarr (harrives e he).pe_lt hes
    exact ⟨t, ht, hrouted, hmem m hm⟩

theorem deliverAll {es : List Entry} (hs : Routed cfg Ok bound extra s)
    (hpe : es ≠ [] → pe < cfg.numMembers)
    (hes : ∀ e ∈ es, e.item.destinationPe = pe ∧ e.hops ≤ bound) :
    Routed cfg Ok bound (extra + items es) (es.foldl (fun s e => s.localDeliver pe e) s) := by
  induction es generalizing s extra with
  | nil => rwa [items_nil, add_zero]
  | cons e es ih =>
    obtain ⟨⟨hdest, hhops⟩, hrest⟩ := forall_mem_cons.1 hes
    have hlt := hpe (cons_ne_nil e es)
    rw [items_cons, ← add_assoc]
    exact ih (hs.localDeliver hlt hdest hhops) (fun _ => hlt) hrest

/-- A message is deleted after its items have been stored. -/
theorem delete (hs : Routed cfg Ok bound (items m.entries) s) (hm : m ∈ s.network) :
    Routed cfg Ok bound 0 { s with network := s.network.erase m } where
  __ := hs
  arrives m' hm' := hs.arrives m' (mem_of_mem_erase hm')
  total := by
    have htotal := hs.total
    rw [content_erase hm] at htotal
    rw [add_zero]
    exact add_right_cancel htotal

theorem network_deliverAll (es : List Entry) :
    (es.foldl (fun s e => s.localDeliver pe e) s).network = s.network := by
  induction es generalizing s with
  | nil => rfl
  | cons e es ih => exact ih

/-- An item that can be routed can be inserted. -/
theorem insertData (hcarr : Carries cfg Ok From bound) {item : Item} (hs : Routed cfg Ok bound 0 s)
    (hpe : pe < cfg.numMembers) (hdest : item.destinationPe < cfg.numMembers)
    (hfrom : From pe item.destinationPe)
    (hstarted : (s.streamers pe).stagedCompletionStarted = false) :
    ∃ t, s.insertData cfg pe item = some t ∧ Routed cfg Ok bound 0 t := by
  obtain ⟨route, hroute, hlead⟩ := hcarr.initial hpe hdest hfrom
  obtain ⟨t, ht, hrouted, -⟩ := hs.storeMessage hpe hdest hlead (Nat.zero_add bound).le
  rw [System.insertData, hstarted, if_neg Bool.false_ne_true, hroute, bind_some, ht]
  refine ⟨_, rfl, { hrouted with total := ?_ }⟩
  have htotal := hrouted.total
  rw [add_zero, ← Multiset.coe_add, Multiset.coe_singleton]
  exact htotal

/-- After a flush a PE has no items in its buffers. -/
theorem flushIfIdle (hs : Routed cfg Ok bound 0 s) :
    ∃ t, s.flushIfIdle cfg pe = some t ∧ t.buffered cfg pe = 0 := by
  have hempty : (s.flushToIntermediateDestinations cfg pe).buffered cfg pe = 0 := by
    refine Finset.sum_eq_zero fun x hx => ?_
    obtain ⟨hdim, hidx⟩ := Finset.mem_sigma.1 hx
    rw [flushToIntermediateDestinations_empty s (Finset.mem_range.1 hdim) (Finset.mem_range.1 hidx),
      items_nil]
  have hflushed : Routed cfg Ok bound 0 (s.flushToIntermediateDestinations cfg pe) :=
    hs.emits (emits_flushToIntermediateDestinations s)
  have hnumber := hflushed.number pe
  rw [hempty, Multiset.card_zero] at hnumber
  by_cases hzero : (s.streamers pe).numDataItemsBuffered = 0
  · refine ⟨s, by simp [System.flushIfIdle, hzero], ?_⟩
    rw [hs.number, Multiset.card_eq_zero] at hzero
    exact hzero
  · exact ⟨_, by simp [System.flushIfIdle, hzero, hnumber], hempty⟩

/-- What an event does keeps all items on their way. -/
theorem exec (hcarr : Carries cfg Ok From bound) {e : Event} (hs : Routed cfg Ok bound 0 s)
    (hfrom : ∀ pe item, e = .insert pe item → From pe item.destinationPe)
    (h : s.exec cfg e = some t) : Routed cfg Ok bound 0 t := by
  cases e with
  | insert pe item =>
    rw [System.exec] at h
    split at h
    · obtain ⟨hpe, hdest⟩ := ‹_ ∧ _›
      cases hstarted : (s.streamers pe).stagedCompletionStarted with
      | true =>
        rw [System.insertData, hstarted, if_pos rfl] at h
        cases h
      | false =>
        obtain ⟨u, hu, hrouted⟩ := hs.insertData hcarr hpe hdest (hfrom pe item rfl) hstarted
        rw [hu] at h
        cases h
        exact hrouted
    · cases h
  | receive m =>
    rw [System.exec] at h
    split at h
    · have hm := ‹m ∈ s.network›
      cases hpersonal : m.personalized with
      | false =>
        rw [hpersonal, if_neg Bool.false_ne_true, receiveAlongRoute] at h
        obtain ⟨u, hu, hrouted, hmem⟩ := hs.receive hcarr hm hpersonal
        rw [hu, bind_some] at h
        have hdeleted := hrouted.delete hmem
        split at h
        · split at h
          · exact hdeleted.emits (emits_markMessageReceived h)
          · split at h
            · exact hdeleted.emits (emits_checkIfStarted h)
            · cases h
              exact hdeleted
        · cases h
          exact hdeleted
      | true =>
        have harrives := hs.arrives m hm
        rw [hpersonal, if_pos rfl, receiveAtDestination] at h
        have hes : ∀ e ∈ m.entries, e.item.destinationPe = m.dest ∧ e.hops ≤ bound := by
          intro e he
          have hreaches := (harrives e he).reaches
          rw [hpersonal, if_pos rfl] at hreaches
          exact ⟨hreaches.symm, (harrives e he).hops⟩
        have hpe (hne : m.entries ≠ []) : m.dest < cfg.numMembers :=
          (exists_mem_of_ne_nil _ hne).elim fun e he => (harrives e he).pe_lt
        have hrouted := hs.deliverAll hpe hes
        have hdeleted := hrouted.delete (m := m) ((network_deliverAll m.entries).symm ▸ hm)
        rw [network_deliverAll] at hdeleted
        split at h
        · exact hdeleted.emits (emits_markMessageReceived h)
        · cases h
          exact hdeleted
    · cases h
  | flush pe =>
    rw [System.exec] at h
    split at h
    · exact hs.emits (emits_flushIfIdle h)
    · cases h
  | done pe n =>
    rw [System.exec] at h
    split at h
    · exact hs.emits (emits_done h)
    · cases h
  | syncInit pe =>
    rw [System.exec] at h
    split at h
    · exact hs.emits (emits_startStagedCompletion h)
    · cases h

end Routed

end CharmRuntime.Tram
