import CharmRuntime.Multicast.Manager
import Mathlib.Data.Multiset.Bind

/-!
# Packets on the spanning tree

A vertex handles each packet of a multicast once, as its parent does (`Inv`). There is one buffer
for the packets of all multicasts, and a packet does not say to which it belongs. As long as a
vertex that has begun a message gets no packet of another multicast, the bytes in the buffer are
bytes of one multicast, and all of them as soon as there are enough (`assemble_spec`).
-/

set_option autoImplicit false

namespace CharmRuntime.Multicast

open Lib Function List Option
open Multiset (add_bind coe_add coe_nodup mem_coe mem_of_le)
open Multiset (disjoint_left coe_card zero_le cons_coe singleton_add coe_nil nodup_zero mem_add
  notMem_zero)

variable {cfg : Config} {data : List Byte} {j : Nat} {p : Packet}

/-! ## The bytes of packets -/

/-- The bytes of a packet, with their positions. -/
def Packet.cells (p : Packet) : Multiset (Byte × Nat) := ↑(p.data.zipIdx p.offset)

theorem mem_packets (hp : p ∈ cfg.packets j data) :
    p.mcast = j ∧ p.totalsize = data.length ∧ p.offset + p.data.length ≤ data.length := by
  obtain ⟨piece, hpiece, rfl⟩ := mem_map.1 hp
  obtain ⟨-, -, hend, -⟩ := Stripes.mem_cut cfg.splitSize_pos (fst_mem_of_mem_zipIdx hpiece)
  rw [zero_add] at hend
  exact ⟨rfl, rfl, hend⟩

theorem packets_nodup : (cfg.packets j data).Nodup := by
  refine (Stripes.nodup_zipIdx _ 0).map ?_
  rintro ⟨⟨offset, bytes⟩, i⟩ ⟨⟨offset', bytes'⟩, i'⟩ heq
  cases heq
  rfl

/-- The packets have the bytes of the multicast. -/
theorem bind_packets : Multiset.bind ↑(cfg.packets j data) Packet.cells = ↑(data.zipIdx 0) := by
  rw [← Stripes.flatMap_cut cfg.splitSize_pos le_rfl]
  refine (Multiset.coe_bind _ fun p : Packet => p.data.zipIdx p.offset).trans (congrArg _ ?_)
  rw [Config.packets, flatMap_map]
  conv_rhs => rw [← zipIdx_map_fst 0 (Stripes.cut cfg.splitSize data.length 0 data), flatMap_map]

/-! ## Putting packets together -/

/-- A buffer holds the bytes of some packets of a multicast. -/
structure Holds (cfg : Config) (j : Nat) (data asmMsg : List Byte) (asmFill : Nat)
    (pieces : List Packet) : Prop where
  length : asmMsg.length = data.length
  part : (↑pieces : Multiset Packet) ≤ ↑(cfg.packets j data)
  bytes : Multiset.bind ↑pieces Packet.cells ≤ ↑(asmMsg.zipIdx 0)
  fill : asmFill = (Multiset.bind ↑pieces Packet.cells).card

/-- What is in `asm_msg`: nothing, or bytes of one multicast. -/
def MCastEntry.Assembles (cfg : Config) (sent : List (List Byte)) (e : MCastEntry) : Prop :=
  (e.asmMsg = none ∧ e.asmFill = 0 ∧ e.pieces = []) ∨ ∃ asmMsg j data,
    e.asmMsg = some asmMsg ∧ e.pieces ≠ [] ∧
    sent[j]? = some data ∧ Holds cfg j data asmMsg e.asmFill e.pieces

variable {sent : List (List Byte)} {e : MCastEntry} {asmMsg : List Byte} {asmFill : Nat}
  {pieces : List Packet}

theorem bind_le (hle : (↑pieces : Multiset Packet) ≤ ↑(cfg.packets j data)) :
    Multiset.bind ↑pieces Packet.cells ≤ ↑(data.zipIdx 0) := by
  obtain ⟨rest, hrest⟩ := Multiset.le_iff_exists_add.1 hle
  rw [← @bind_packets cfg data j, hrest, add_bind]
  exact Multiset.le_add_right _ _

theorem bind_concat : Multiset.bind ↑(pieces ++ [p]) Packet.cells =
    Multiset.bind ↑pieces Packet.cells + p.cells := by
  rw [← coe_add, add_bind, Multiset.coe_singleton, Multiset.singleton_bind]

/-- A buffer with as many bytes as the multicast holds the multicast. -/
theorem Holds.eq_data (h : Holds cfg j data asmMsg asmFill pieces) (hfill : asmFill = data.length) :
    asmMsg = data := by
  have hcard : data.length ≤ (Multiset.bind ↑pieces Packet.cells).card := by rw [← h.fill, hfill]
  have hboth := (Stripes.eq_of_card h.bytes (h.length ▸ hcard)).symm.trans
    (Stripes.eq_of_card (bind_le h.part) hcard)
  have hsnd : ∀ {b : Byte} {i : Nat}, asmMsg[i]? = some b ↔ data[i]? = some b := fun {b i} => by
    have hmem : (b, i) ∈ (↑(asmMsg.zipIdx 0) : Multiset (Byte × Nat)) ↔
        (b, i) ∈ (↑(data.zipIdx 0) : Multiset _) := by
      rw [hboth]
    simpa [mk_mem_zipIdx_iff_getElem?] using hmem
  exact ext_getElem? fun i => ext fun b => hsnd

/-- A packet of the same multicast is added. -/
theorem Holds.splice (h : Holds cfg j data asmMsg asmFill pieces) (hp : p ∈ cfg.packets j data)
    (hnd : (pieces ++ [p]).Nodup) : Holds cfg j data (Stripes.splice asmMsg p.offset p.data)
      (asmFill + p.data.length) (pieces ++ [p]) := by
  have hend : p.offset + p.data.length ≤ asmMsg.length := h.length ▸ (mem_packets hp).2.2
  have hle : (↑(pieces ++ [p]) : Multiset Packet) ≤ ↑(cfg.packets j data) := by
    rw [Multiset.le_iff_subset (coe_nodup.2 hnd)]
    intro q hq
    rcases mem_append.1 (mem_coe.1 hq) with hq | hq
    · exact mem_of_le h.part (mem_coe.2 hq)
    · rwa [mem_singleton.1 hq]
  have hbytes := bind_le hle
  rw [bind_concat] at hbytes
  refine ⟨?_, hle, ?_, ?_⟩
  · rw [Stripes.length_splice hend, h.length]
  · rw [bind_concat]
    have hnew : ∀ c ∈ Multiset.bind ↑pieces Packet.cells,
        c.2 < 0 + p.offset ∨ 0 + p.offset + p.data.length ≤ c.2 := by
      -- Positions of different packets of a multicast differ.
      intro c hc
      by_contra hin
      have hpos : (Multiset.map Prod.snd (Multiset.bind ↑pieces Packet.cells + p.cells)).Nodup := by
        refine Multiset.nodup_of_le (Multiset.map_le_map hbytes) ?_
        rw [Multiset.map_coe, zipIdx_map_snd]
        exact nodup_range'
      rw [Multiset.map_add, Multiset.nodup_add] at hpos
      refine disjoint_left.1 hpos.2.2 (Multiset.mem_map_of_mem _ hc) ?_
      rw [Packet.cells, Multiset.map_coe, zipIdx_map_snd, mem_coe, mem_range'_1]
      omega
    have hsplice := Stripes.le_splice h.bytes hend hnew
    rwa [zero_add] at hsplice
  · rw [bind_concat, Multiset.card_add, h.fill, Packet.cells, coe_card, length_zipIdx]

theorem asmFill_le (h : e.Assembles cfg sent) : ∀ asmMsg, e.asmMsg = some asmMsg →
    e.asmFill ≤ asmMsg.length := by
  intro asmMsg hmsg
  rcases h with ⟨hnone, -⟩ | ⟨asmMsg', j, data, hmsg', -, -, hholds⟩
  · exact nomatch hnone.symm.trans hmsg
  · obtain rfl : asmMsg = asmMsg' := some.inj (hmsg.symm.trans hmsg')
    rw [hholds.fill]
    exact (Multiset.card_le_card hholds.bytes).trans_eq (by rw [coe_card, length_zipIdx])

/-- A packet is added that is not of another multicast. -/
theorem assemble_spec (h : e.Assembles cfg sent) (hdata : sent[p.mcast]? = some data)
    (hp : p ∈ cfg.packets p.mcast data) (hnd : (e.pieces ++ [p]).Nodup)
    (hsame : ∀ q ∈ e.pieces, q.mcast = p.mcast) :
    ∃ asmMsg, Holds cfg p.mcast data asmMsg (e.asmFill + p.data.length) (e.pieces ++ [p]) ∧
      e.assemble p = some { e with
        asmMsg := some asmMsg
        asmFill := e.asmFill + p.data.length
        pieces := e.pieces ++ [p]
        handled := e.handled ++ [p] } := by
  obtain ⟨-, htotal, hend⟩ := mem_packets hp
  obtain ⟨hzero, hholds⟩ : (e.asmMsg = none → e.asmFill = 0) ∧ Holds cfg p.mcast data
      (e.asmMsg.getD (replicate p.totalsize none)) e.asmFill e.pieces := by
    rcases h with ⟨hnone, hzero, hnil⟩ | ⟨asmMsg, j, data', hmsg, hne, hdata', hholds⟩
    · rw [hnone, hnil, hzero]
      exact ⟨fun _ => rfl, by simp [htotal], zero_le _, zero_le _, rfl⟩
    · obtain ⟨q, hq⟩ := exists_mem_of_ne_nil _ hne
      obtain ⟨hmcast, -⟩ := mem_packets (mem_of_le hholds.part (mem_coe.2 hq))
      obtain rfl : p.mcast = j := (hsame q hq).symm.trans hmcast
      obtain rfl : data = data' := some.inj (hdata.symm.trans hdata')
      rw [hmsg]
      exact ⟨nofun, hholds⟩
  exact ⟨_, hholds.splice hp hnd, if_pos ⟨hzero, hholds.length ▸ hend⟩⟩

/-! ## The way down the tree -/

/-- The packets in flight to a vertex. -/
def pending (network : List Call) (v : Nat) : Multiset Packet :=
  ↑((network.filter fun c => c.entry = v).map Call.packet)

/-- The packets that a vertex handles or has handled. -/
def System.held (s : System) (v : Nat) : Multiset Packet :=
  pending s.network v + ↑((s.entries v).packetBuf ++ (s.entries v).handled)

section Held

variable {s : System} {network calls : List Call} {call : Call} {v w : Nat}

theorem pending_append : pending (network ++ calls) w = pending network w + pending calls w := by
  rw [pending, filter_append, map_append, ← coe_add]
  rfl

theorem pending_erase (hcall : call ∈ network) :
    pending network w = pending (network.erase call) w + if call.entry = w then {call.packet}
      else 0 := by
  have hperm := ((perm_cons_erase hcall).filter fun c => c.entry = w).map Call.packet
  rw [pending, Multiset.coe_eq_coe.2 hperm]
  by_cases hw : call.entry = w
  · rw [filter_cons_of_pos (by simpa using hw), if_pos hw, map_cons, ← cons_coe,
      ← singleton_add, add_comm]
    rfl
  · rw [filter_cons_of_neg (by simpa using hw), if_neg hw, add_zero]
    rfl

/-- Packets for one vertex. -/
theorem pending_map (l : List Packet) (fromBuffer : Bool) :
    pending (l.map fun p => ⟨v, p, fromBuffer⟩) w = if v = w then ↑l else 0 := by
  split <;> simp_all [pending, List.filter_map, comp_def]

/-- A packet for several vertices. -/
theorem pending_children {children : List Nat} (hnd : children.Nodup) :
    pending (children.map fun c => ⟨c, p, false⟩) w = if w ∈ children then {p} else 0 := by
  have hfilter : children.filter (fun c => c = w) = replicate (children.count w) w := filter_eq ..
  simp only [pending, List.filter_map, comp_def, hfilter, map_replicate]
  split
  · rw [count_eq_one_of_mem hnd ‹_›]
    rfl
  · rw [count_eq_zero_of_not_mem ‹_›]
    rfl

theorem held_childrenReady : (s.childrenReady v).held w = s.held w := by
  change pending (s.network ++ _) w + ↑((update s.entries v _ w).packetBuf ++ _) = _
  rw [pending_append, pending_map, System.held]
  by_cases hw : v = w
  · subst hw
    simp [System.childrenReady, System.put, System.post, add_assoc]
  · simp [System.childrenReady, System.put, System.post, update_of_ne (Ne.symm hw), hw]

theorem held_keep (hcall : call ∈ s.network) :
    ({ s with network := s.network.erase call }.put call.entry { s.entries call.entry with
      packetBuf := (s.entries call.entry).packetBuf ++ [call.packet] }).held w = s.held w := by
  rw [System.held, System.held, pending_erase hcall]
  by_cases hw : w = call.entry
  · subst hw
    simp [System.put, add_assoc, ← coe_add, ← cons_coe]
  · simp [System.put, update_of_ne hw, Ne.symm hw]

/-- A packet that is handled is sent to the children. -/
theorem held_handle (hcall : call ∈ s.network) {e : MCastEntry}
    (hbuf : e.packetBuf = (s.entries call.entry).packetBuf)
    (hhandled : e.handled = (s.entries call.entry).handled ++ [call.packet]) :
    (({ s with network := s.network.erase call }.post
      ((cfg.children call.entry).map fun child => ⟨child, call.packet, false⟩)).put
        call.entry e).held w =
      s.held w + if w ∈ cfg.children call.entry then {call.packet} else 0 := by
  rw [System.held, System.held, pending_erase hcall, System.put, System.post, pending_append,
    pending_children (cfg.nodup _)]
  by_cases hw : w = call.entry
  · subst hw
    simp [hbuf, hhandled, ← coe_add, ← cons_coe, add_assoc, add_left_comm, add_comm]
  · simp [update_of_ne hw, Ne.symm hw, add_right_comm]

end Held

/-- Each vertex handles a packet once, after its parent, and puts together bytes of one
multicast. -/
structure Inv (cfg : Config) (s : System) : Prop where
  nodup : ∀ v, (s.held v).Nodup
  genuine : ∀ v, ∀ p ∈ s.held v, ∃ data, s.sent[p.mcast]? = some data ∧ p ∈ cfg.packets p.mcast data
  above : ∀ v, ∀ c ∈ cfg.children v, ∀ p ∈ s.held c, p ∈ (s.entries v).handled
  pieces : ∀ v, (s.entries v).pieces.Sublist (s.entries v).handled
  assembles : ∀ v, (s.entries v).Assembles cfg s.sent
  assembled : ∀ m ∈ s.assembled, m ∈ s.sent

/-- A vertex that has begun a message gets no packet of another multicast. -/
def System.Whole (s : System) : Event → Prop
  | .recvPacket call => s.Keeps call ∨ ∀ q ∈ (s.entries call.entry).pieces,
      q.mcast = call.packet.mcast
  | _ => True

section Steps

variable {s t : System} {call : Call} {v : Nat}

variable (h : Inv cfg s)

include h

theorem Inv.send : Inv cfg (s.sendToSection cfg data) := by
  have hold : ∀ {j m}, s.sent[j]? = some m → (s.sent ++ [data])[j]? = some m := fun {j m} hm => by
    rw [getElem?_append_left (List.getElem?_eq_some_iff.1 hm).1, hm]
  have hheld : ∀ w, ∃ new : List Packet, (s.sendToSection cfg data).held w = ↑new + s.held w ∧
      (new = [] ∨ w = cfg.root ∧ new = cfg.packets s.sent.length data) := fun w => by
    rw [System.held, System.sendToSection, System.post, pending_append]
    by_cases hsplit : cfg.totalcount data = 1
    · rw [if_pos hsplit]
      exact ⟨[], by simp [pending, System.held], .inl rfl⟩
    · rw [if_neg hsplit, pending_map]
      by_cases hw : cfg.root = w
      · rw [if_pos hw]
        exact ⟨_, by rw [System.held, add_right_comm, add_comm], .inr ⟨hw.symm, rfl⟩⟩
      · rw [if_neg hw, add_zero]
        exact ⟨[], by rw [System.held, coe_nil, zero_add], .inl rfl⟩
  exact {
    nodup := fun w => by
      obtain ⟨new, hnew, hcase⟩ := hheld w
      rw [hnew, Multiset.nodup_add]
      rcases hcase with rfl | ⟨-, rfl⟩
      · exact ⟨nodup_zero, h.nodup w, Multiset.zero_disjoint _⟩
      · refine ⟨packets_nodup, h.nodup w, disjoint_left.2 fun {p} hp hmem => ?_⟩
        obtain ⟨m, hm, -⟩ := h.genuine w p hmem
        rw [(mem_packets (mem_coe.1 hp)).1] at hm
        exact (List.getElem?_eq_some_iff.1 hm).1.false
    genuine := fun w p hp => by
      obtain ⟨new, hnew, hcase⟩ := hheld w
      rw [hnew, mem_add] at hp
      rcases hp with hp | hp
      · rcases hcase with rfl | ⟨-, rfl⟩
        · exact absurd hp (notMem_zero p)
        · rw [(mem_packets (mem_coe.1 hp)).1]
          exact ⟨data, getElem?_concat_length .., hp⟩
      · obtain ⟨m, hm, hmem⟩ := h.genuine w p hp
        exact ⟨m, hold hm, hmem⟩
    above := fun v c hc p hp => by
      obtain ⟨new, hnew, rfl | ⟨rfl, -⟩⟩ := hheld c
      · rw [hnew, coe_nil, zero_add] at hp
        exact h.above v c hc p hp
      · exact absurd hc (cfg.root_notMem v)
    pieces := h.pieces
    assembles := fun v => (h.assembles v).imp_right fun ⟨asmMsg, j, m, hmsg, hne, hm, hholds⟩ =>
      ⟨asmMsg, j, m, hmsg, hne, hold hm, hholds⟩
    assembled := fun m hm => mem_append_left _ (h.assembled m hm) }

/-- Packets are kept or released. -/
theorem Inv.move {network : List Call} {ready : Bool} {packetBuf : List Packet}
    (hheld : ∀ w, System.held
      ({ s with network }.put v { s.entries v with ready, packetBuf }) w = s.held w) :
    Inv cfg ({ s with network }.put v { s.entries v with ready, packetBuf }) where
  nodup w := hheld w ▸ h.nodup w
  genuine w := (hheld w).symm ▸ h.genuine w
  above w c hc p hp := by
    have hsame : ∀ w, (update s.entries v { s.entries v with ready, packetBuf } w).handled =
        (s.entries w).handled :=
      (forall_update_iff s.entries fun w e => e.handled = (s.entries w).handled).2
        ⟨rfl, fun _ _ => rfl⟩
    exact (hsame w).symm ▸ h.above w c hc p (hheld c ▸ hp)
  pieces := (forall_update_iff s.entries fun _ e => e.pieces.Sublist e.handled).2
    ⟨h.pieces v, fun w _ => h.pieces w⟩
  assembles := (forall_update_iff s.entries fun _ e => e.Assembles cfg s.sent).2
    ⟨h.assembles v, fun w _ => h.assembles w⟩
  assembled := h.assembled

section

variable (hcall : call ∈ s.network)

include hcall

theorem Inv.notMem_handled :
    call.packet ∈ s.held call.entry ∧ call.packet ∉ (s.entries call.entry).handled := by
  have hmem : call.packet ∈ pending s.network call.entry :=
    List.mem_map_of_mem (mem_filter.2 ⟨hcall, decide_eq_true rfl⟩)
  refine ⟨mem_add.2 (.inl hmem), fun hin => ?_⟩
  have hnd := h.nodup call.entry
  rw [System.held, Multiset.nodup_add] at hnd
  exact disjoint_left.1 hnd.2.2 hmem (mem_append_right _ hin)

/-- A packet goes to the children, and into a buffer. -/
theorem Inv.forward {e : MCastEntry} {assembled : List (List Byte)}
    (hbuf : e.packetBuf = (s.entries call.entry).packetBuf)
    (hhandled : e.handled = (s.entries call.entry).handled ++ [call.packet])
    (hpieces : e.pieces.Sublist e.handled)
    (hasm : e.Assembles cfg s.sent) (hassembled : ∀ m ∈ assembled, m ∈ s.sent) :
    Inv cfg
    { ({ s with network := s.network.erase call }.post ((cfg.children call.entry).map fun child =>
      ⟨child, call.packet, false⟩)).put call.entry e with assembled } := by
  obtain ⟨hmem, hfresh⟩ := h.notMem_handled hcall
  have hheld := fun w => @held_handle cfg s call w hcall e hbuf hhandled
  have hcases : ∀ {w p}, p ∈ s.held w + (if w ∈ cfg.children call.entry then {call.packet} else 0) →
      p ∈ s.held w ∨ w ∈ cfg.children call.entry ∧ p = call.packet := fun {w p} hp => by
    rcases mem_add.1 hp with hp | hp
    · exact .inl hp
    · split at hp
      · exact .inr ⟨‹_›, Multiset.mem_singleton.1 hp⟩
      · exact absurd hp (notMem_zero p)
  exact {
    nodup := fun w => (hheld w).symm ▸ by
      split
      · -- The child has not got the packet, as the packet has not been handled here.
        rw [add_comm, singleton_add, Multiset.nodup_cons]
        exact ⟨fun hin => hfresh (h.above _ w ‹_› _ hin), h.nodup w⟩
      · rw [add_zero]
        exact h.nodup w
    genuine := fun w p hp => by
      rcases hcases ((hheld w) ▸ hp) with hp | ⟨-, rfl⟩
      · exact h.genuine w p hp
      · exact h.genuine _ _ hmem
    above := fun v c hc p hp => by
      change p ∈ (update s.entries call.entry e v).handled
      by_cases hv : v = call.entry
      · rw [hv, update_self, hhandled]
        rcases hcases ((hheld c) ▸ hp) with hp | ⟨-, rfl⟩
        · exact mem_append_left _ (h.above _ c (hv ▸ hc) p hp)
        · exact mem_append_right _ (mem_singleton_self _)
      · rw [update_of_ne hv]
        rcases hcases ((hheld c) ▸ hp) with hp | ⟨hchild, -⟩
        · exact h.above v c hc p hp
        · exact absurd (cfg.parent v _ c hc hchild) hv
    pieces := (forall_update_iff s.entries fun _ e => e.pieces.Sublist e.handled).2
      ⟨hpieces, fun v _ => h.pieces v⟩
    assembles := (forall_update_iff s.entries fun _ e => e.Assembles cfg s.sent).2
      ⟨hasm, fun v _ => h.assembles v⟩
    assembled := hassembled }

/-- A packet is handled that is not of another multicast than those before it. -/
theorem Inv.handle (hkeeps : ¬ s.Keeps call)
    (hwhole : ∀ q ∈ (s.entries call.entry).pieces, q.mcast = call.packet.mcast) :
    ∃ t, { s with network := s.network.erase call }.recvPacket cfg call = some t ∧ Inv cfg t := by
  obtain ⟨hmem, hfresh⟩ := h.notMem_handled hcall
  obtain ⟨data, hdata, hpacket⟩ := h.genuine _ _ hmem
  have hnd : ((s.entries call.entry).pieces ++ [call.packet]).Nodup := by
    have hhandled := h.nodup call.entry
    rw [System.held, Multiset.nodup_add, coe_nodup, nodup_append] at hhandled
    rw [← concat_eq_append]
    exact ((h.pieces _).nodup hhandled.2.1.2.1).concat fun hin => hfresh ((h.pieces _).subset hin)
  obtain ⟨asmMsg, hholds, hassemble⟩ :=
    assemble_spec (h.assembles call.entry) hdata hpacket hnd hwhole
  rw [System.recvPacket, if_neg hkeeps]
  refine ⟨_, congrArg (Option.map _) hassemble, ?_⟩
  dsimp only
  split
  · rename_i hfull
    obtain rfl : asmMsg = data := hholds.eq_data (hfull.trans (mem_packets hpacket).2.1)
    exact h.forward hcall rfl rfl (nil_sublist _) (.inl ⟨rfl, rfl, rfl⟩)
      (forall_mem_concat h.assembled (mem_of_getElem? hdata))
  · refine h.forward hcall ?_ ?_ ?_ ?_ h.assembled
    · rfl
    · rfl
    · exact (h.pieces call.entry).append_right _
    · exact .inr ⟨asmMsg, _, data, rfl, append_ne_nil_of_right_ne_nil _ (cons_ne_nil _ _),
        hdata, hholds⟩

end

theorem Inv.exec {e : Event} (hstep : s.exec cfg e = some t ∧ s.Whole e) : Inv cfg t := by
  obtain ⟨hexec, hwhole⟩ := hstep
  cases e with
  | send data =>
    cases hexec
    exact h.send
  | childrenReady v =>
    obtain ⟨-, hexec⟩ := ite_none_right_eq_some.1 hexec
    cases hexec
    exact h.move fun w => held_childrenReady
  | recvPacket call =>
    obtain ⟨hcall, hexec⟩ := ite_none_right_eq_some.1 hexec
    by_cases hkeeps : s.Keeps call
    · rw [System.recvPacket, if_pos hkeeps] at hexec
      cases hexec
      exact h.move fun w => held_keep hcall
    · obtain ⟨t', ht', hinv⟩ := h.handle hcall hkeeps (hwhole.resolve_left hkeeps)
      rwa [some.inj (hexec.symm.trans ht')]

end Steps

theorem inv_init : Inv cfg .init where
  nodup _ := nodup_zero
  genuine _ p hp := absurd hp (notMem_zero p)
  above _ _ _ p hp := absurd hp (notMem_zero p)
  pieces _ := nil_sublist _
  assembles _ := .inl ⟨rfl, rfl, rfl⟩
  assembled := nofun

/-- If a vertex that has begun a message gets no packet of another multicast, all messages that are
put together are multicasts, no packets of different multicasts are combined, `asm_fill` does not
exceed the size of the message, and all packets can be handled. -/
theorem packets_reassembled (cfg : Config) {es : List Event} {s : System}
    (hrun : Run (fun a e b => a.exec cfg e = some b ∧ a.Whole e) .init es s) :
    (∀ m ∈ s.assembled, m ∈ s.sent) ∧
      (∀ v, ∀ p ∈ (s.entries v).pieces, ∀ q ∈ (s.entries v).pieces, p.mcast = q.mcast) ∧
      (∀ v asmMsg, (s.entries v).asmMsg = some asmMsg → (s.entries v).asmFill ≤ asmMsg.length) ∧
      ∀ call ∈ s.network, s.Whole (.recvPacket call) → ∃ t, s.exec cfg
      (.recvPacket call) = some t := by
  have hinv : Inv cfg s := hrun.invariant inv_init fun a e b ha => ha.exec
  refine ⟨hinv.assembled, fun v p hp q hq => ?_, fun v => asmFill_le (hinv.assembles v),
    fun call hcall hwhole => ?_⟩
  · rcases hinv.assembles v with ⟨-, -, hnil⟩ | ⟨asmMsg, j, data, -, -, -, hholds⟩
    · rw [hnil] at hp
      cases hp
    · have hmcast : ∀ p ∈ (s.entries v).pieces, p.mcast = j := fun p hp =>
        (mem_packets (mem_of_le hholds.part (mem_coe.2 hp))).1
      rw [hmcast p hp, hmcast q hq]
  · rw [System.exec, if_pos hcall]
    by_cases hkeeps : s.Keeps call
    · exact ⟨_, if_pos hkeeps⟩
    · obtain ⟨t, ht, -⟩ := hinv.handle hcall hkeeps (hwhole.resolve_left hkeeps)
      exact ⟨t, ht⟩

/-- A tree of one vertex; packets have one byte. -/
def oneVertex : Config where
  root := 0
  children _ := []
  nodup _ := nodup_nil
  parent _ _ _ hc := nomatch hc
  root_notMem _ := nofun
  splitSize := 1
  splitThreshold := 1
  splitSize_pos := one_pos

/-- The two packets of a multicast are put together, whichever comes first. -/
theorem packets_reassembled_two : ∃ s : System,
    Run (fun a e b => a.exec oneVertex e = some b ∧ a.Whole e) .init
      [.childrenReady 0, .send [some 1, some 2], .recvPacket ⟨0, ⟨0, 1, [some 2], 1, 2, 2⟩, false⟩,
        .recvPacket ⟨0, ⟨0, 0, [some 1], 0, 2, 2⟩, false⟩] s ∧
      s.assembled = [[some 1, some 2]] ∧ ∀ m ∈ s.assembled, m ∈ s.sent := by
  have hrun : Run (fun (a : System) e b => a.exec oneVertex e = some b ∧ a.Whole e) .init
      [.childrenReady 0, .send [some 1, some 2], .recvPacket ⟨0, ⟨0, 1, [some 2], 1, 2, 2⟩, false⟩,
        .recvPacket ⟨0, ⟨0, 0, [some 1], 0, 2, 2⟩, false⟩] _ :=
    .cons ⟨rfl, trivial⟩ <|
    .cons ⟨rfl, trivial⟩ <|
    .cons ⟨rfl, .inr nofun⟩ <|
    -- the piece that is there is of the same multicast
    .single ⟨rfl, .inr fun q hq => by rw [mem_singleton.1 hq]⟩
  obtain ⟨hsent, -⟩ := packets_reassembled oneVertex hrun
  exact ⟨_, hrun, rfl, hsent⟩

/-- The first packet of a multicast and the second one of another are put together. -/
theorem packets_combined : ∃ es s,
    Run (fun a e b => System.exec oneVertex a e = some b) .init es s ∧
    ∃ m ∈ s.assembled, m ∉ s.sent :=
  ⟨[.childrenReady 0, .send [some 1, some 2], .send [some 3, some 4],
    .recvPacket ⟨0, ⟨0, 0, [some 1], 0, 2, 2⟩, false⟩,
    .recvPacket ⟨0, ⟨1, 1, [some 4], 1, 2, 2⟩, false⟩], _, .of_foldlM rfl,
      [some 1, some 4], by decide, by decide⟩

end CharmRuntime.Multicast
