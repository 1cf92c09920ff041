import CharmRuntime.Lib.Run
import Mathlib.Order.Interval.Finset.Nat

/-!
# Dissemination along a tree

A packet that is delivered makes its receiver send further packets; packets may be delivered in any
order. `NumberedTree` says that the packets are numbered below `n`, that the receiver of packet `x`
sends exactly the packets whose parent is `x`, and that a parent has a smaller number than its
children. Number 0 is the root: it has the packet already and only sends. Then every number other
than the root is delivered exactly once when nothing is in flight any more, and never twice before
(`NumberedTree.count_le_one`, `NumberedTree.count_eq_one`), every packet in flight can be delivered
(`NumberedTree.inFlight_code`), and there are fewer than `n` deliveries (`NumberedTree.length_lt`),
so that deliveries come to an end (`NumberedTree.exists_end`).
-/

set_option autoImplicit false

namespace CharmRuntime.Lib

open List

universe u v

/-- The packets in flight, and those delivered so far in the order of their delivery. -/
structure Spread (α : Type u) where
  inFlight : List α
  received : List α

/-- One delivery: any packet in flight is taken, and what its receiver sends is added. -/
inductive Delivery {α : Type u} (forward : α → Option (List α)) : Spread α → α → Spread α → Prop
  | deliver {before after received next : List α} {x : α} (hnext : forward x = some next) :
      Delivery forward ⟨before ++ x :: after, received⟩ x
        ⟨before ++ after ++ next, received ++ [x]⟩

/-- The receivers form a tree on the numbers below `n`; `code` gives the packet of a number. -/
structure NumberedTree {α : Type u} (forward : α → Option (List α)) (code : Nat → α) (n : Nat)
    (children : Nat → List Nat) (parent : Nat → Nat) : Prop where
  forward_code : ∀ x < n, forward (code x) = some ((children x).map code)
  nodup : ∀ x < n, (children x).Nodup
  mem_children : ∀ x < n, ∀ c, c ∈ children x ↔ 0 < c ∧ c < n ∧ parent c = x
  parent_lt : ∀ c, 0 < c → c < n → parent c < c

namespace NumberedTree

variable {α : Type u} {forward : α → Option (List α)} {code : Nat → α} {n c : Nat}
  {children : Nat → List Nat} {parent : Nat → Nat} {got : List Nat}

/-- The numbers of the packets: a packet with number `c` was sent once by the root if `c` is its
child, and once for each delivery to the parent of `c`. -/
structure Numbers (code : Nat → α) (n : Nat) (parent : Nat → Nat) (s : Spread α)
    (flight got : List Nat) : Prop where
  inFlight : s.inFlight = flight.map code
  received : s.received = got.map code
  flight_mem : ∀ c ∈ flight, 0 < c ∧ c < n
  got_mem : ∀ c ∈ got, 0 < c ∧ c < n
  balance : ∀ c, 0 < c → c < n →
    flight.count c + got.count c = got.count (parent c) + if parent c = 0 then 1 else 0

theorem count_map {β : Type v} [DecidableEq β] {g : Nat → β}
    (hg : ∀ x < n, ∀ y < n, g x = g y → x = y) (hgot : ∀ c ∈ got, 0 < c ∧ c < n)
    (hc : c < n) : (got.map g).count (g c) = got.count c := by
  induction got with
  | nil => rfl
  | cons x got ih =>
    have hx := hgot x (mem_cons_self ..)
    have hinj : g x = g c ↔ x = c := ⟨hg x hx.2 c hc, fun heq => heq ▸ rfl⟩
    rw [map_cons, count_cons, count_cons, ih fun y hy => hgot y (mem_cons_of_mem _ hy)]
    simp [hinj]

section Steps

variable (h : NumberedTree forward code n children parent) {s : Spread α}

include h

theorem count_children {x : Nat} (hx : x < n) (h0 : 0 < c) (hc : c < n) :
    (children x).count c = if parent c = x then 1 else 0 := by
  by_cases hp : parent c = x
  · rw [if_pos hp]
    exact count_eq_one_of_mem (h.nodup x hx) ((h.mem_children x hx c).2 ⟨h0, hc, hp⟩)
  · rw [if_neg hp]
    apply count_eq_zero_of_not_mem
    intro hmem
    exact hp ((h.mem_children x hx c).1 hmem).2.2

theorem numbers_start (hn : 0 < n) :
    Numbers code n parent ⟨(children 0).map code, []⟩ (children 0) [] where
  inFlight := rfl
  received := rfl
  flight_mem c hc := by
    obtain ⟨h0, hlt, -⟩ := (h.mem_children 0 hn c).1 hc
    exact ⟨h0, hlt⟩
  got_mem c hc := by cases hc
  balance c h0 hc := by
    rw [h.count_children hn h0 hc]
    simp

theorem numbers_step {t : Spread α} {p : α} {flight : List Nat}
    (hs : Numbers code n parent s flight got) (hstep : Delivery forward s p t) :
    ∃ flight' got', Numbers code n parent t flight' got' := by
  cases hstep with
  | @deliver before after received next x hnext =>
    obtain ⟨before', tail, hflight, hbefore, htail⟩ := map_eq_append_iff.1 hs.inFlight.symm
    obtain ⟨x', after', rfl, hx', hafter⟩ := map_eq_cons_iff.1 htail
    have hx : 0 < x' ∧ x' < n := hs.flight_mem x' (by rw [hflight]; simp)
    rw [← hx', h.forward_code x' hx.2] at hnext
    cases hnext
    refine ⟨before' ++ after' ++ children x', got ++ [x'], ?_, ?_, ?_, ?_, ?_⟩
    · simp [hbefore, hafter]
    · have := hs.received
      simp_all
    · have hmem := hs.flight_mem
      rw [hflight] at hmem
      have hrest := (forall_mem_append.1 hmem).imp_right fun h => (forall_mem_cons.1 h).2
      refine forall_mem_append.2 ⟨forall_mem_append.2 hrest, fun c hc => ?_⟩
      · obtain ⟨h0, hlt, -⟩ := (h.mem_children x' hx.2 c).1 hc
        exact ⟨h0, hlt⟩
    · exact forall_mem_concat hs.got_mem hx
    · -- the delivery moves `x'` from one side to the other and counts once for each child of `x'`
      intro c h0 hc
      have hbal := hs.balance c h0 hc
      rw [hflight] at hbal
      simp only [count_append, count_cons, count_nil, h.count_children hx.2 h0 hc, beq_iff_eq]
        at hbal ⊢
      have hsym : (parent c = x') = (x' = parent c) := propext eq_comm
      simp only [hsym]
      omega

theorem numbers_of_run (hn : 0 < n) {es : List α}
    (hrun : Run (Delivery forward) ⟨(children 0).map code, []⟩ es s) :
    ∃ flight got, Numbers code n parent s flight got := by
  apply hrun.invariant (P := fun s => ∃ flight got, Numbers code n parent s flight got)
  · exact ⟨_, _, h.numbers_start hn⟩
  · rintro a p b ⟨flight, got, ha⟩ hstep
    exact h.numbers_step ha hstep

variable {s : Spread α} {flight got : List Nat}

/-- No number is delivered twice, by induction on the number: its parent is smaller. -/
theorem got_count_le (hs : Numbers code n parent s flight got) (c : Nat) :
    flight.count c + got.count c ≤ 1 := by
  induction c using Nat.strongRecOn with
  | _ c ih =>
    by_cases hc : 0 < c ∧ c < n
    · have hbal := hs.balance c hc.1 hc.2
      have hpar := ih (parent c) (h.parent_lt c hc.1 hc.2)
      by_cases hroot : parent c = 0
      · have hzero : got.count (parent c) = 0 := by
          apply count_eq_zero_of_not_mem
          intro hmem
          have := (hs.got_mem _ hmem).1
          omega
        rw [if_pos hroot] at hbal
        omega
      · rw [if_neg hroot] at hbal
        omega
    · have hflight : flight.count c = 0 :=
        count_eq_zero_of_not_mem fun hmem => hc (hs.flight_mem c hmem)
      have hgot : got.count c = 0 :=
        count_eq_zero_of_not_mem fun hmem => hc (hs.got_mem c hmem)
      omega

/-- When nothing is in flight every number but the root has been delivered. -/
theorem got_count_eq (hs : Numbers code n parent s [] got) (c : Nat) (h0 : 0 < c) (hc : c < n) :
    got.count c = 1 := by
  induction c using Nat.strongRecOn with
  | _ c ih =>
    have hbal := hs.balance c h0 hc
    have hle := h.got_count_le hs c
    by_cases hroot : parent c = 0
    · rw [if_pos hroot] at hbal
      simp only [count_nil] at hbal hle
      omega
    · have hlt := h.parent_lt c h0 hc
      have hpar := ih (parent c) hlt (by omega) (by omega)
      rw [if_neg hroot, hpar] at hbal
      simpa using hbal

end Steps

section Runs

variable (h : NumberedTree forward code n children parent) (hn : 0 < n) {es : List α} {s : Spread α}
  (hrun : Run (Delivery forward) ⟨(children 0).map code, []⟩ es s)

include h hn hrun

/-- There are fewer deliveries than numbers. -/
theorem length_lt : s.received.length < n := by
  obtain ⟨flight, got, hs⟩ := h.numbers_of_run hn hrun
  have hnd : got.Nodup := by
    rw [nodup_iff_count_le_one]
    intro c
    have := h.got_count_le hs c
    omega
  have hsub : got.toFinset ⊆ Finset.Ioo 0 n := by
    intro c hc
    exact Finset.mem_Ioo.2 (hs.got_mem c (mem_toFinset.1 hc))
  have hcard := Finset.card_le_card hsub
  rw [toFinset_card_of_nodup hnd, Nat.card_Ioo] at hcard
  rw [hs.received, List.length_map]
  omega

theorem inFlight_code {p : α} (hp : p ∈ s.inFlight) : ∃ x < n, p = code x := by
  obtain ⟨flight, got, hs⟩ := h.numbers_of_run hn hrun
  rw [hs.inFlight] at hp
  obtain ⟨x, hx, rfl⟩ := mem_map.1 hp
  exact ⟨x, (hs.flight_mem x hx).2, rfl⟩

variable {β : Type v} [DecidableEq β] {f : α → β}
  (hf : ∀ x < n, ∀ y < n, f (code x) = f (code y) → x = y)

include hf

/-- Nobody receives a packet twice; `f` tells the receiver of a packet. -/
theorem count_le_one (hc : c < n) : (s.received.map f).count (f (code c)) ≤ 1 := by
  obtain ⟨flight, got, hs⟩ := h.numbers_of_run hn hrun
  have hcount := count_map (g := f ∘ code) hf hs.got_mem hc
  have hle := h.got_count_le hs c
  rw [hs.received, map_map]
  dsimp only [Function.comp_apply] at hcount
  omega

/-- The root receives nothing. -/
theorem count_root : (s.received.map f).count (f (code 0)) = 0 := by
  obtain ⟨flight, got, hs⟩ := h.numbers_of_run hn hrun
  have hcount := count_map (g := f ∘ code) hf hs.got_mem hn
  rw [hs.received, map_map]
  refine hcount.trans (count_eq_zero_of_not_mem fun hmem => ?_)
  exact lt_irrefl 0 (hs.got_mem 0 hmem).1

/-- When nothing is in flight, everyone but the root has received the packet once. -/
theorem count_eq_one (hend : s.inFlight = []) (h0 : 0 < c) (hc : c < n) :
    (s.received.map f).count (f (code c)) = 1 := by
  obtain ⟨flight, got, hs⟩ := h.numbers_of_run hn hrun
  have hcount := count_map (g := f ∘ code) hf hs.got_mem hc
  have hnil : flight = [] := map_eq_nil_iff.1 (hs.inFlight.symm.trans hend)
  subst hnil
  rw [hs.received, map_map]
  exact hcount.trans (h.got_count_eq hs c h0 hc)

end Runs

/-- Every run can be continued until nothing is in flight. -/
theorem exists_end (h : NumberedTree forward code n children parent) (hn : 0 < n) {es : List α}
    {s : Spread α} (hrun : Run (Delivery forward) ⟨(children 0).map code, []⟩ es s) :
    ∃ es' t, Run (Delivery forward) ⟨(children 0).map code, []⟩ es' t ∧ t.inFlight = [] := by
  -- a delivery makes the number of those that are still possible smaller
  generalize hk : n - s.received.length = k
  induction k using Nat.strongRecOn generalizing es s with
  | _ k ih =>
    obtain ⟨inFlight, received⟩ := s
    cases inFlight with
    | nil => exact ⟨es, _, hrun, rfl⟩
    | cons x rest =>
      obtain ⟨c, hc, rfl⟩ := h.inFlight_code hn hrun (mem_cons_self ..)
      have hdeliver := @Delivery.deliver α forward [] rest received _ _ (h.forward_code c hc)
      have hlt := h.length_lt hn hrun
      dsimp only at hlt hk
      apply ih _ _ (hrun.snoc hdeliver) rfl
      rw [length_append, length_singleton]
      omega

end NumberedTree

end CharmRuntime.Lib
