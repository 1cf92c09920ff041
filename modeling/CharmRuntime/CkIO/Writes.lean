import CharmRuntime.CkIO.Buffers
import CharmRuntime.Lib.Tables

/-!
# A write session writes its bytes once

The elements of a session whose offset is a multiple of the PE stripe divide its range, the pieces
that `Manager::write` sends fit to them, and each byte is in a call, in a message, in a buffer or in
the file (`Inv`). When the calls cover the range and all messages have been handled, each byte has
been written once and `syncData` is triggered once.

The session works exactly if its offset is a multiple of the PE stripe, the number of elements fits
in an `int`, and so does the size of each buffer (`session_right_iff`). The constructor of the first
element aborts otherwise (`session_unaligned`), elements are missing, or a buffer is never written.
-/

set_option autoImplicit false

namespace CharmRuntime.CkIO

open Lib Words Function List Option
open Multiset (coe_add le_iff_subset mem_coe card_le_card)
open Multiset (mem_map card_map coe_card mem_add card_add notMem_zero le_add_left disjoint_left
  mem_sum coe_le)

variable {e : WriteSession} {i p : Nat} {call : Write}

namespace Session

variable (s : Session)

/-! ## The elements -/

/-- The number of PE stripes that the range meets. -/
def stripes : Nat := (s.offset % s.opts.peStripe + s.bytes - 1) / s.opts.peStripe + 1

theorem peStripe_pos : 0 < s.opts.peStripe := lt_of_lt_of_le s.opts.pos s.opts.le

/-- Rounding up. -/
theorem div_add_ite {n d : Nat} (hn : 0 < n) :
    n / d + (if n % d ≠ 0 then 1 else 0) = (n - 1) / d + 1 := by
  obtain ⟨m, rfl⟩ : ∃ m, n = m + 1 := ⟨n - 1, by omega⟩
  rw [Nat.succ_div, Nat.add_sub_cancel]
  by_cases hdvd : d ∣ m + 1
  · rw [if_pos hdvd, if_neg (not_not.2 (Nat.mod_eq_zero_of_dvd hdvd))]
  · rw [if_neg hdvd, if_pos fun h => hdvd (Nat.dvd_of_mod_eq_zero h)]

/-- The code counts the stripes, in an `int`. -/
theorem numStripes_eq : s.numStripes = toInt32 s.stripes := by
  have hpe := s.peStripe_pos
  have hpos := s.pos
  have hmod := Nat.mod_lt s.offset hpe
  rw [numStripes, stripes]
  generalize s.offset % s.opts.peStripe = r at *
  generalize s.opts.peStripe = pe at *
  -- a first stripe that is cut counts one, and then the rest is rounded up
  have hcount : ∃ first left : Nat, 0 < left ∧ (r + s.bytes - 1) / pe + 1 =
    first + ((left - 1) / pe + 1) ∧
      (if r ≠ 0 ∧ pe - r < s.bytes then s.bytes - (pe - r) else s.bytes) = left ∧
      (if r ≠ 0 ∧ pe - r < s.bytes then 1 else 0 : Int) = first := by
    by_cases hfirst : r ≠ 0 ∧ pe - r < s.bytes
    · refine ⟨1, s.bytes - (pe - r), by omega, ?_, if_pos hfirst, if_pos hfirst⟩
      have hsum : r + s.bytes - 1 = s.bytes - (pe - r) - 1 + pe := by omega
      rw [hsum, Nat.add_div_right _ hpe, add_comm]
    · refine ⟨0, s.bytes, hpos, ?_, if_neg hfirst, if_neg hfirst⟩
      by_cases hr : r = 0
      · rw [hr, zero_add, zero_add]
      · rw [Nat.div_eq_of_lt (by omega), Nat.div_eq_of_lt (by omega)]
  obtain ⟨first, left, hleft, hstripes, hif, hif'⟩ := hcount
  rw [hif, hif', hstripes, ← div_add_ite hleft]
  split
  · rw [toInt32_add]
    congr 1
  · rfl

/-- `myOffset` of an element. -/
def myOffset (i : Nat) : Nat := (s.offset / s.opts.peStripe + i) * s.opts.peStripe

/-- `myBytes` of an element. -/
def myBytes (i : Nat) : Nat := min s.opts.peStripe (s.offset + s.bytes - s.myOffset i)

/-- The element for an offset. -/
def indexOf (p : Nat) : Nat := (p - s.offset / s.opts.peStripe * s.opts.peStripe) / s.opts.peStripe

/-- The size of the buffer for an offset. -/
def bufferSize (p : Nat) : Nat :=
  WriteSession.expectedBufferSize ⟨s.myOffset (s.indexOf p), s.myBytes (s.indexOf p), 0, ∅⟩
    s.opts.writeStripe p

/-- The offsets of the range. -/
def InRange (p : Nat) : Prop := s.offset ≤ p ∧ p < s.offset + s.bytes

variable {s}

variable (halign : s.opts.peStripe ∣ s.offset)

include halign

theorem offset_div_mul : s.offset / s.opts.peStripe * s.opts.peStripe = s.offset :=
  Nat.div_mul_cancel halign

theorem myOffset_eq (i : Nat) : s.myOffset i = s.offset + i * s.opts.peStripe := by
  rw [myOffset, add_mul, offset_div_mul halign]

theorem lt_stripes_iff (i : Nat) : i < s.stripes ↔ s.myOffset i < s.offset + s.bytes := by
  have hpos := s.pos
  rw [stripes, Nat.mod_eq_zero_of_dvd halign, zero_add, Nat.lt_succ_iff,
    Nat.le_div_iff_mul_le s.peStripe_pos, myOffset_eq halign]
  omega

/-- An element has the offsets that are mapped to it. -/
theorem mem_element_iff (hp : s.InRange p) (i : Nat) :
    (s.myOffset i ≤ p ∧ p < s.myOffset i + s.myBytes i) ↔ s.indexOf p = i := by
  obtain ⟨hp, hp'⟩ := hp
  have hpe := s.peStripe_pos
  rw [indexOf, offset_div_mul halign, Nat.div_eq_iff hpe, myBytes, myOffset_eq halign]
  omega

theorem indexOf_lt (hp : s.InRange p) : s.indexOf p < s.stripes := by
  have hmem := ((mem_element_iff halign hp _).2 rfl).1
  rw [lt_stripes_iff halign]
  exact lt_of_le_of_lt hmem hp.2

theorem element_eq (hi : i < s.stripes) : s.element i = some ⟨s.myOffset i, s.myBytes i, 0, ∅⟩ := by
  have hlt := (lt_stripes_iff halign i).1 hi
  have hoff := myOffset_eq halign i
  refine if_pos ?_
  change s.offset ≤ s.myOffset i ∧ s.myOffset i + s.myBytes i ≤ s.offset + s.bytes
  rw [myBytes]
  omega

theorem myOffset_add_myBytes_le (hi : i < s.stripes) :
    s.myOffset i + s.myBytes i ≤ s.offset + s.bytes := by
  have hlt := (lt_stripes_iff halign i).1 hi
  rw [myBytes]
  omega

end Session

/-! ## Messages -/

/-- The data of a message. -/
def Forward.block (msg : Forward) : Write := (msg.offset, msg.data)

/-- A message fits to its element. -/
structure Forward.Fits (s : Session) (msg : Forward) : Prop where
  data : msg.data ≠ []
  index : msg.index < s.stripes
  mine : s.myOffset msg.index ≤ msg.offset ∧ msg.offset + msg.data.length ≤
    s.myOffset msg.index + s.myBytes msg.index

theorem writeLoop_eq (s : Session) (fuel offset : Nat) (data : List UInt8) :
    s.writeLoop fuel offset data =
      (Stripes.cut s.opts.peStripe fuel offset data).map fun w => ⟨s.indexOf w.1, w.1, w.2⟩ := by
  induction fuel generalizing offset data with
  | zero => rfl
  | succ fuel ih =>
    rw [Session.writeLoop, Stripes.cut]
    split
    · rfl
    · rw [map_cons, ← ih]
      rfl

/-- The bytes of several writes. -/
def bytesOf (ws : List Write) : List Cell := ws.flatMap fun w => w.2.zipIdx w.1

theorem allCells_eq_bytesOf (ws : List Write) : allCells ws = ↑(bytesOf ws) := by
  induction ws with
  | nil => rfl
  | cons w ws ih =>
    rw [allCells_cons, bytesOf, flatMap_cons, ← coe_add, ih]
    rfl

/-- The pieces of a call have its bytes. -/
theorem allCells_cut (s : Session) (call : Write) :
    allCells (Stripes.cut s.opts.peStripe call.2.length call.1 call.2) = cells call := by
  rw [allCells_eq_bytesOf]
  exact congrArg _ (Stripes.flatMap_cut s.peStripe_pos le_rfl)

/-- `Manager::write` sends the bytes of the call to the elements they belong to. -/
theorem write_spec {s : Session} (halign : s.opts.peStripe ∣ s.offset)
    (hcall : s.offset ≤ call.1 ∧ call.1 + call.2.length ≤ s.offset + s.bytes) :
    ∃ msgs, s.write call = some msgs ∧ allCells (msgs.map Forward.block) = cells call ∧ ∀ m ∈ msgs,
    m.Fits s := by
  refine ⟨_, if_pos hcall, ?_, fun m hm => ?_⟩
  · rw [writeLoop_eq, List.map_map]
    exact (congrArg allCells (map_id _)).trans (allCells_cut s call)
  · rw [writeLoop_eq] at hm
    obtain ⟨w, hw, rfl⟩ := mem_map.1 hm
    obtain ⟨hne, hle, hend, hstripe⟩ := Stripes.mem_cut s.peStripe_pos hw
    have hlen := length_pos_iff.2 hne
    have hin : s.InRange w.1 := ⟨by omega, by omega⟩
    refine ⟨hne, Session.indexOf_lt halign hin, ?_⟩
    have hin' : s.InRange (w.1 + w.2.length - 1) := ⟨by omega, by omega⟩
    have hlast : s.indexOf (w.1 + w.2.length - 1) = s.indexOf w.1 := by
      obtain ⟨d, hd⟩ : ∃ d, w.2.length = d + 1 := ⟨w.2.length - 1, by omega⟩
      have hmod : (w.1 - s.offset) % s.opts.peStripe = w.1 % s.opts.peStripe := by
        obtain ⟨a, ha⟩ := halign
        rw [ha, Nat.sub_mul_mod (by omega)]
      have hsum : w.1 + w.2.length - 1 - s.offset = w.1 - s.offset + d := by omega
      rw [Session.indexOf, Session.indexOf, Session.offset_div_mul halign, hsum,
        div_add_eq_iff s.peStripe_pos, hmod]
      omega
    have hfirst := (Session.mem_element_iff halign hin _).2 rfl
    have hlast := (Session.mem_element_iff halign hin' _).2 hlast
    dsimp only
    omega

/-! ## All elements -/

/-- Each byte is in a call, in a message, in a buffer or in the file. An element contributes when it
has written all its bytes. -/
structure Inv (session : Session) (all : Multiset Cell) (s : System)
    (held written : Nat → Multiset Cell) : Prop where
  length : s.elements.length = session.stripes
  total : allCells s.calls + allCells (s.messages.map Forward.block) +
    ∑ i ∈ Finset.range session.stripes, (held i + written i) = all
  file : allCells s.file = ∑ i ∈ Finset.range session.stripes, written i
  calls : ∀ call ∈ s.calls, session.offset ≤ call.1 ∧
    call.1 + call.2.length ≤ session.offset + session.bytes
  messages : ∀ m ∈ s.messages, m.Fits session
  elements : ∀ i < session.stripes, ∃ e, s.elements[i]? = some e ∧ e.myOffset = session.myOffset i ∧
    e.myBytes = session.myBytes i ∧ Rep session.opts.writeStripe e (held i) (written i)
  contributed : ∀ i < session.stripes,
    s.contributed.count i = if (written i).card = session.myBytes i then 1 else 0

section Steps

variable {S : Session} {all cs : Multiset Cell} {s : System} {held written : Nat → Multiset Cell}
  {event : Event}

/-- The order of the writes does not matter. -/
theorem allCells_perm {ws ws' : List Write} (h : ws.Perm ws') : allCells ws = allCells ws' :=
  (h.map cells).sum_eq

/-- One of the terms of a sum grows. -/
theorem sum_update_add {n : Nat} (f : Nat → Multiset Cell) (x : Multiset Cell) (hi : i < n) :
    ∑ j ∈ Finset.range n, update f i (f i + x) j = ∑ j ∈ Finset.range n, f j + x :=
  sum_eq_add_of_eq_off (Finset.mem_range.2 hi) (fun _ _ hne => update_of_ne hne _ _)
    (update_self ..)

section

variable (hmine : ∀ c ∈ cs, e.Mine c.2) (hnd : (offsets cs).Nodup)

include hmine hnd

/-- Bytes of an element that have different offsets. -/
theorem offsets_le_range
    : offsets cs ≤ ↑(range' e.myOffset e.myBytes) := by
  rw [le_iff_subset hnd]
  intro p hp
  obtain ⟨c, hc, rfl⟩ := mem_map.1 hp
  rw [mem_coe, mem_range'_1]
  exact hmine c hc

theorem card_le_of_mine
    : cs.card ≤ e.myBytes := by
  have hcard := card_le_card (offsets_le_range hmine hnd)
  rwa [offsets, card_map, coe_card, length_range'] at hcard

end

/-- An element that still gets bytes has not written all its bytes. -/
theorem card_lt_of_new {W : Nat} {held written new : Multiset Cell} (hrep : Rep W e held written)
    (hnew : ∀ c ∈ new, e.Mine c.2) (hne : new ≠ 0) (hnd : (offsets (held + written + new)).Nodup) :
    written.card < e.myBytes := by
  have hcard := card_le_of_mine (fun c hc => (mem_add.1 hc).elim (hrep.mine c) (hnew c)) hnd
  rw [card_add, card_add] at hcard
  have hpos := Multiset.card_pos.2 hne
  omega

theorem enabled_of_exec {s' : System} (h : s.exec S event = some s') : s.Enabled event := by
  cases event with
  | write | forwardData => exact (ite_none_right_eq_some.1 h).1

variable (halign : S.opts.peStripe ∣ S.offset)

include halign

theorem inv_write (hinv : Inv S all s held written) (hcall : call ∈ s.calls) :
    ∃ s', s.exec S (.write call) = some s' ∧ Inv S all s' held written ∧
      s'.calls = s.calls.erase call := by
  obtain ⟨msgs, hmsgs, hcells, hfits⟩ := write_spec halign (hinv.calls call hcall)
  refine ⟨_, by rw [System.exec, if_pos hcall, hmsgs]; rfl, ?_, rfl⟩
  exact { hinv with
    total := by
      rw [← hinv.total, map_append, allCells_append, hcells, allCells_perm (perm_cons_erase hcall),
        allCells_cons]
      abel
    calls := fun c hc => hinv.calls c (mem_of_mem_erase hc)
    messages := fun m hm => (mem_append.1 hm).elim (hinv.messages m) (hfits m) }

section End

variable (hall : (offsets all).Nodup) (hinv : Inv S all s held written)

include hall hinv

theorem inv_forwardData {m : Forward} (hm : m ∈ s.messages) :
    ∃ s', s.exec S (.forwardData m) = some s' ∧ (∃ held' written', Inv S all s' held' written') ∧
      s'.calls = s.calls ∧ s'.messages = s.messages.erase m := by
  obtain ⟨hdata, hindex, hmine⟩ := hinv.messages m hm
  obtain ⟨e, he, hoff, hbytes, hrep⟩ := hinv.elements m.index hindex
  have hend := Session.myOffset_add_myBytes_le halign hindex
  have hfile : e.myOffset + e.myBytes < 2 ^ 63 := by
    have := S.inFile
    omega
  have hnd : (offsets (held m.index + written m.index + cells m.block)).Nodup := by
    refine Multiset.nodup_of_le (Multiset.map_le_map ?_) hall
    have hsplit : all = held m.index + written m.index + cells m.block + (allCells s.calls +
        allCells ((s.messages.erase m).map Forward.block) +
        ∑ j ∈ (Finset.range S.stripes).erase m.index, (held j + written j)) := by
      rw [← hinv.total, allCells_perm ((perm_cons_erase hm).map _), map_cons, allCells_cons,
        ← Finset.add_sum_erase _ _ (Finset.mem_range.2 hindex)]
      abel
    rw [hsplit]
    exact Multiset.le_add_right _ _
  obtain ⟨o, ho, hoff', hbytes', held', hsum, hrep'⟩ :=
    forwardData_spec (w := m.block) S.opts.pos hfile hrep (by rw [hoff, hbytes]; exact hmine) hnd
  have hnew : ∀ c ∈ cells m.block, e.Mine c.2 := fun c hc => by
    obtain ⟨hge, hlt⟩ := mem_cells_bounds hc
    rw [WriteSession.Mine, hoff, hbytes]
    exact ⟨hmine.1.trans hge, hlt.trans_le hmine.2⟩
  have hlt := card_lt_of_new hrep hnew (cells_ne_zero hdata) hnd
  refine ⟨_, by rw [System.exec, if_pos hm, he, bind_some]; exact congrArg _ ho,
    ⟨update held m.index held', update written m.index (written m.index + allCells o.written), ?_⟩,
    ?_⟩
  swap
  · exact ⟨rfl, rfl⟩
  exact {
    length := by rw [length_set, hinv.length]
    total := by
      have hupdate : (fun j => update held m.index held' j +
          update written m.index (written m.index + allCells o.written) j) =
          update (fun j => held j + written j) m.index
            (held m.index + written m.index + cells m.block) := by
        funext j
        by_cases heq : j = m.index
        · rw [heq, update_self, update_self, update_self, hsum]
        · rw [update_of_ne heq, update_of_ne heq, update_of_ne heq]
      have hsums := sum_update_add (fun j => held j + written j) (cells m.block) hindex
      rw [hupdate, hsums, ← hinv.total, allCells_perm ((perm_cons_erase hm).map _), map_cons,
        allCells_cons]
      abel
    file := by
      rw [allCells_append, hinv.file, sum_update_add written (allCells o.written) hindex]
    calls := hinv.calls
    messages := fun m' hm' => hinv.messages m' (mem_of_mem_erase hm')
    elements := fun j hj => by
      by_cases heq : j = m.index
      · subst heq
        refine ⟨o.element, ?_, hoff'.trans hoff, hbytes'.trans hbytes, ?_⟩
        · rw [getElem?_set_self (hinv.length ▸ hindex)]
        · rw [update_self, update_self]
          exact hrep'
      · rw [update_of_ne heq, update_of_ne heq, getElem?_set_ne (Ne.symm heq)]
        exact hinv.elements j hj
    contributed := fun j hj => by
      rw [count_append, hinv.contributed j hj]
      by_cases heq : j = m.index
      · subst heq
        rw [update_self, if_neg (by omega), hrep'.count, hbytes', hbytes]
        split <;> simp
      · have hnot : j ∉ if o.element.myBytesWritten = o.element.myBytes then [m.index] else [] := by
          split <;> simp [heq]
        rw [update_of_ne heq, count_eq_zero.2 hnot, add_zero] }

theorem exec_inv (henabled : s.Enabled event) :
    ∃ s', s.exec S event = some s' ∧ ∃ held' written', Inv S all s' held' written' := by
  cases event with
  | write call =>
    obtain ⟨s', hs', hinv', -⟩ := inv_write halign hinv henabled
    exact ⟨s', hs', held, written, hinv'⟩
  | forwardData m =>
    obtain ⟨s', hs', hinv', -⟩ := inv_forwardData halign hall hinv henabled
    exact ⟨s', hs', hinv'⟩

/-- All calls can be made and all messages handled. -/
theorem exists_end :
    ∃ es s', Run (fun a e b => a.exec S e = some b) s es s' ∧ s'.calls = [] ∧ s'.messages = [] ∧
      ∃ held' written', Inv S all s' held' written' := by
  -- First the calls, then the messages.
  induction hn : s.calls.length generalizing s held written with
  | succ n ih =>
    obtain ⟨call, hcall⟩ := exists_mem_of_length_pos (Nat.lt_of_lt_of_eq (Nat.succ_pos n) hn.symm)
    obtain ⟨s', hs', hinv', hrest⟩ := inv_write halign hinv hcall
    obtain ⟨es, t, hrun, hend⟩ :=
      ih hinv' (by rw [hrest, length_erase_of_mem hcall, hn, Nat.add_sub_cancel])
    exact ⟨_, t, .cons hs' hrun, hend⟩
  | zero =>
    have hcalls := length_eq_zero_iff.1 hn
    clear hn
    induction hn : s.messages.length generalizing s held written with
    | zero => exact ⟨[], s, .nil, hcalls, length_eq_zero_iff.1 hn, held, written, hinv⟩
    | succ n ih =>
      obtain ⟨m, hm⟩ := exists_mem_of_length_pos (Nat.lt_of_lt_of_eq (Nat.succ_pos n) hn.symm)
      obtain ⟨s', hs', ⟨held', written', hinv'⟩, hsame, hrest⟩ :=
        inv_forwardData halign hall hinv hm
      obtain ⟨es, t, hrun, hend⟩ := ih hinv' (hsame.trans hcalls)
        (by rw [hrest, length_erase_of_mem hm, hn, Nat.add_sub_cancel])
      exact ⟨_, t, .cons hs' hrun, hend⟩

end End

end Steps

/-! ## The beginning -/

/-- Calls whose ranges partition the range of the session. -/
structure Session.Partitioned (session : Session) (calls : List Write) : Prop where
  inside : ∀ call ∈ calls, session.offset ≤ call.1 ∧
    call.1 + call.2.length ≤ session.offset + session.bytes
  cover : ((bytesOf calls).map Prod.snd).Perm (range' session.offset session.bytes)

section Start

variable {S : Session} {calls : List Write}

theorem Session.Partitioned.offsets_eq (h : S.Partitioned calls) :
    offsets (allCells calls) = ↑(range' S.offset S.bytes) := by
  rw [allCells_eq_bytesOf, offsets, Multiset.map_coe]
  exact Multiset.coe_eq_coe.2 h.cover

theorem Session.Partitioned.nodup (h : S.Partitioned calls) : (offsets (allCells calls)).Nodup := by
  rw [h.offsets_eq]
  exact nodup_range'

theorem mapM_eq_some {α β : Type} {f : α → Option β} {g : α → β} {l : List α}
    (h : ∀ x ∈ l, f x = some (g x)) : l.mapM f = some (l.map g) := by
  induction l with
  | nil => rfl
  | cons x l ih =>
    rw [mapM_cons, h x mem_cons_self, ih fun y hy => h y (mem_cons_of_mem x hy)]
    rfl

theorem rep_init {W : Nat} (hW : 0 < W) (myOffset myBytes : Nat) :
    Rep W ⟨myOffset, myBytes, 0, ∅⟩ 0 0 where
  count := rfl
  mine c hc := absurd hc (notMem_zero c)
  nodup := Multiset.nodup_zero
  whole c hc := absurd hc (notMem_zero c)
  buffers p hp := by
    have hself := (mem_stripe_iff hW hp).2 ⟨hp, rfl⟩
    exact holds_empty (by omega)
  keys k hk := absurd hk (AList.notMem_empty k)
  present c hc := absurd hc (notMem_zero c)

variable (halign : S.opts.peStripe ∣ S.offset)

include halign

theorem myBytes_pos (hi : i < S.stripes) :
    0 < S.myBytes i := by
  have hlt := (Session.lt_stripes_iff halign i).1 hi
  have hpe := S.peStripe_pos
  rw [Session.myBytes]
  omega

/-- The elements of an aligned session are created, and are empty. -/
theorem start_eq (hfew : S.stripes < 2 ^ 31)
    (hcalls : S.Partitioned calls) : ∃ s, System.start S calls = some s ∧
      Inv S (allCells calls) s (fun _ => 0) fun _ => 0 := by
  have hnum : S.numStripes.toNat = S.stripes := by
    rw [S.numStripes_eq, toInt32_natCast hfew, Int.toNat_natCast]
  have hmapM := mapM_eq_some (f := S.element) (l := List.range S.stripes) fun i hi =>
    Session.element_eq halign (mem_range.1 hi)
  refine ⟨_, by rw [System.start, hnum, hmapM]; rfl, ?_⟩
  exact {
    length := by rw [List.length_map, length_range]
    total := by
      rw [add_zero, Finset.sum_const_zero, add_zero]
      exact add_zero _
    file := Finset.sum_const_zero.symm
    calls := hcalls.inside
    messages := nofun
    elements := fun i hi => by
      refine ⟨⟨S.myOffset i, S.myBytes i, 0, ∅⟩, ?_, rfl, rfl, rep_init S.opts.pos _ _⟩
      rw [getElem?_map, getElem?_range hi]
      rfl
    contributed := fun i hi => by
      rw [Multiset.card_zero, if_neg (myBytes_pos halign hi).ne]
      rfl }

end Start

/-! ## The end -/

section Finish

variable {S : Session} {calls : List Write} {s : System} {held written : Nat → Multiset Cell}

variable {all : Multiset Cell}

section

variable (hinv : Inv S all s held written)

include hinv

/-- The session has written what it is to write, as far as it has got. -/
theorem file_le : allCells s.file ≤ all := by
  rw [← hinv.total, hinv.file, Finset.sum_add_distrib]
  exact (le_add_left _ _).trans (le_add_left _ _)

theorem card_le_myBytes (hi : i < S.stripes) : (held i).card + (written i).card ≤ S.myBytes i := by
  obtain ⟨e, -, hoff, hbytes, hrep⟩ := hinv.elements i hi
  rw [← card_add, ← hbytes]
  exact card_le_of_mine hrep.mine hrep.nodup

/-- An element that has written all its bytes has written all its offsets. -/
theorem mem_offsets_of_card (hi : i < S.stripes) (hcard : (written i).card = S.myBytes i)
    (hp : S.myOffset i ≤ p ∧ p < S.myOffset i + S.myBytes i) : p ∈ offsets (written i) := by
  obtain ⟨e, -, hoff, hbytes, hrep⟩ := hinv.elements i hi
  have hle := offsets_le_range (fun c hc => hrep.mine c (mem_add.2 (.inr hc)))
    (nodup_offsets_add.1 hrep.nodup).2.1
  have heq := Multiset.eq_of_le_of_card_le hle
    (by rw [coe_card, length_range', hbytes, offsets, card_map, hcard])
  rw [heq, mem_coe, mem_range'_1, hoff, hbytes]
  exact hp

end

/-- A list of different numbers that are all in a multiset is not longer. -/
theorem length_le_card {l : List Nat} {c : Multiset Cell} (hl : l.Nodup)
    (hsub : ∀ p ∈ l, p ∈ offsets c) : l.length ≤ c.card := by
  have hle : (↑l : Multiset Nat) ≤ offsets c := (le_iff_subset (Multiset.coe_nodup.2 hl)).2 hsub
  have hcard := card_le_card hle
  rwa [coe_card, offsets, card_map] at hcard

/-- The buffers are as large for an element as for the session. -/
theorem expectedBufferSize_eq (hoff : e.myOffset = S.myOffset (S.indexOf p))
    (hbytes : e.myBytes = S.myBytes (S.indexOf p)) :
    e.expectedBufferSize S.opts.writeStripe p = S.bufferSize p := by
  rw [Session.bufferSize, WriteSession.expectedBufferSize, WriteSession.expectedBufferSize,
    WriteSession.stripeOffset, WriteSession.stripeOffset, hoff, hbytes]

variable (halign : S.opts.peStripe ∣ S.offset)

include halign

theorem inRange_of_mine (hi : i < S.stripes)
    (hp : S.myOffset i ≤ p ∧ p < S.myOffset i + S.myBytes i) : S.InRange p := by
  have hend := Session.myOffset_add_myBytes_le halign hi
  have hoff := Session.myOffset_eq halign i
  exact ⟨by omega, by omega⟩

variable (hcalls : S.Partitioned calls) (hinv : Inv S (allCells calls) s held written)

include hcalls hinv

/-- When all elements have written all their bytes, nothing is left. -/
theorem file_eq (hcard : ∀ i < S.stripes, (written i).card = S.myBytes i) :
    (bytesOf s.file).Perm (bytesOf calls) := by
  have htotal := hinv.total
  rw [Finset.sum_add_distrib, ← add_assoc] at htotal
  generalize allCells s.calls + allCells (s.messages.map Forward.block) +
    ∑ i ∈ Finset.range S.stripes, held i = rest at htotal
  have hnd := hcalls.nodup
  rw [← htotal, nodup_offsets_add] at hnd
  have hrest : rest = 0 := by
    refine Multiset.eq_zero_of_forall_notMem fun c hc => ?_
    -- A byte that is left has an offset of the range, which some element has written.
    have hp : S.InRange c.2 := by
      have hmem : c.2 ∈ offsets (allCells calls) := by
        rw [← htotal]
        exact mem_offsets_of_mem (mem_add.2 (.inl hc))
      rw [hcalls.offsets_eq, mem_coe, mem_range'_1] at hmem
      exact hmem
    have hi := Session.indexOf_lt halign hp
    have hwritten :=
      mem_offsets_of_card hinv hi (hcard _ hi) ((Session.mem_element_iff halign hp _).2 rfl)
    refine disjoint_left.1 hnd.2.2 (mem_offsets_of_mem hc) ?_
    obtain ⟨d, hd, heq⟩ := mem_map.1 hwritten
    rw [← heq]
    exact mem_offsets_of_mem (mem_sum.2 ⟨_, Finset.mem_range.2 hi, hd⟩)
  rw [← Multiset.coe_eq_coe, ← allCells_eq_bytesOf, ← allCells_eq_bytesOf, hinv.file, ← htotal,
    hrest, zero_add]

/-- When no calls and no messages are left, the bytes of an element are in its buffers or in the
file. -/
theorem mem_offsets_of_end (hnone : s.calls = [] ∧ s.messages = []) (hp : S.InRange p) :
    p ∈ offsets (held (S.indexOf p) + written (S.indexOf p)) := by
  have hmem : p ∈ offsets (allCells calls) := by
    rw [hcalls.offsets_eq, mem_coe, mem_range'_1]
    exact hp
  have htotal := hinv.total
  rw [hnone.1, hnone.2, map_nil, allCells_nil, zero_add, zero_add] at htotal
  rw [← htotal] at hmem
  obtain ⟨c, hc, rfl⟩ := mem_map.1 hmem
  obtain ⟨i, hi, hc⟩ := mem_sum.1 hc
  obtain ⟨e, -, hoff, hbytes, hrep⟩ := hinv.elements i (Finset.mem_range.1 hi)
  have hmine := hrep.mine c hc
  rw [WriteSession.Mine, hoff, hbytes, Session.mem_element_iff halign hp] at hmine
  rw [hmine]
  exact mem_offsets_of_mem hc

section Rest

variable (hsmall : ∀ p, S.InRange p → S.bufferSize p < 2 ^ 31)
  (hnone : s.calls = [] ∧ s.messages = []) (hi : i < S.stripes)

include hsmall hnone hi

/-- No buffer is left in the end, unless it is too large. -/
theorem held_eq_zero : held i = 0 := by
  refine Multiset.eq_zero_of_forall_notMem fun c hc => ?_
  obtain ⟨e, -, hoff, hbytes, hrep⟩ := hinv.elements i hi
  have hW : 0 < S.opts.writeStripe := S.opts.pos
  have hmine := hrep.mine c (mem_add.2 (.inl hc))
  have hindex : ∀ p, e.Mine p → S.InRange p ∧ S.indexOf p = i := fun p hp => by
    rw [WriteSession.Mine, hoff, hbytes] at hp
    have hrange := inRange_of_mine halign hi hp
    exact ⟨hrange, (Session.mem_element_iff halign hrange i).1 hp⟩
  obtain ⟨hrange, hself⟩ := hindex c.2 hmine
  have hsize : e.expectedBufferSize S.opts.writeStripe c.2 < 2 ^ 31 := by
    rw [expectedBufferSize_eq (by rw [hself, hoff]) (by rw [hself, hbytes])]
    exact hsmall c.2 hrange
  have hroom := (hrep.buffers c.2 hmine).room.resolve_right (by omega)
  -- all offsets of the stripe have been received, and none has been written, as this byte has not
  have hstripe : ∀ q ∈ range' (e.stripeOffset S.opts.writeStripe c.2)
      (e.expectedBufferSize S.opts.writeStripe c.2),
      q ∈ offsets (inStripe S.opts.writeStripe (held i) c.2) := fun q hq => by
    obtain ⟨hq, hdiv⟩ := (mem_stripe_iff hW hmine).1 (mem_range'_1.1 hq)
    obtain ⟨hqrange, hqindex⟩ := hindex q hq
    have hmem := mem_offsets_of_end halign hcalls hinv hnone hqrange
    rw [hqindex] at hmem
    obtain ⟨d, hd, rfl⟩ := mem_map.1 hmem
    rcases mem_add.1 hd with hd | hd
    · exact mem_offsets_of_mem (Multiset.mem_filter.2 ⟨hd, hdiv⟩)
    · have hwhole := (hrep.whole d hd).2 c.2 hmine hdiv.symm
      have hdisj := (nodup_offsets_add.1 hrep.nodup).2.2
      exact absurd hwhole (disjoint_left.1 hdisj (mem_offsets_of_mem hc))
  have hcard := length_le_card nodup_range' hstripe
  rw [length_range'] at hcard
  omega

theorem card_written_of_end : (written i).card = S.myBytes i := by
  have hle := card_le_myBytes hinv hi
  refine le_antisymm (by omega) ?_
  have hcard : ∀ p ∈ range' (S.myOffset i) (S.myBytes i), p ∈ offsets (written i) := fun p hp => by
    rw [mem_range'_1] at hp
    have hrange := inRange_of_mine halign hi hp
    have hmem := mem_offsets_of_end halign hcalls hinv hnone hrange
    rwa [(Session.mem_element_iff halign hrange i).1 hp,
      held_eq_zero halign hcalls hinv hsmall hnone hi, zero_add]
      at hmem
  have hlen := length_le_card nodup_range' hcard
  rwa [length_range'] at hlen

end Rest

end Finish

/-! ## `syncData` -/

section Sync

variable {s : System}

theorem synced_le (hi : i < s.elements.length) : s.synced ≤ s.contributed.count i := by
  have hmem : s.contributed.count i ∈ (List.range s.elements.length).map s.contributed.count :=
    List.mem_map_of_mem (mem_range.2 hi)
  rw [System.synced]
  cases hmin : ((List.range s.elements.length).map s.contributed.count).min? with
  | none => exact Nat.zero_le _
  | some k => exact (min?_eq_some_iff.1 hmin).2 _ hmem

theorem le_synced {k : Nat} (hpos : 0 < s.elements.length)
    (h : ∀ i < s.elements.length, k ≤ s.contributed.count i) : k ≤ s.synced := by
  rw [System.synced]
  cases hmin : ((List.range s.elements.length).map s.contributed.count).min? with
  | none =>
    rw [min?_eq_none_iff, map_eq_nil_iff, range_eq_nil] at hmin
    omega
  | some m =>
    obtain ⟨i, hi, rfl⟩ := mem_map.1 (min?_eq_some_iff.1 hmin).1
    exact h i (mem_range.1 hi)

end Sync

/-! ## When a session works -/

/-- For all calls that partition the range and in all orders of events: the assertions hold and the
elements exist, bytes are written at most once and where they belong, `syncData` is triggered at
most once and only when all has been written and no buffer is left, and when nothing is under way
any more all has been written and `syncData` has been triggered. -/
def Session.Right (session : Session) : Prop :=
  ∀ calls, session.Partitioned calls → ∃ s₀, System.start session calls = some s₀ ∧
    ∀ es s, Run (fun a e b => a.exec session e = some b) s₀ es s →
      (∀ e, s.Enabled e → ∃ s', s.exec session e = some s') ∧
      (bytesOf s.file).Subperm (bytesOf calls) ∧ s.synced ≤ 1 ∧
      (s.synced = 1 → (bytesOf s.file).Perm (bytesOf calls) ∧ ∀ e ∈ s.elements, e.bufferMap = ∅) ∧
      (s.calls = [] → s.messages = [] → (bytesOf s.file).Perm (bytesOf calls) ∧ s.synced = 1)

/-- The offset of the session is a multiple of the PE stripe, and the numbers of elements and of
bytes in a buffer fit in an `int`. -/
structure Session.Suitable (session : Session) : Prop where
  aligned : session.opts.peStripe ∣ session.offset
  few : session.stripes < 2 ^ 31
  small : ∀ p, session.InRange p → session.bufferSize p < 2 ^ 31

section Right

variable {S : Session}

theorem bufferMap_eq_empty {W : Nat} {written : Multiset Cell} (hrep : Rep W e 0 written) :
    e.bufferMap = ∅ := by
  have hkeys : e.bufferMap.keys = [] := eq_nil_iff_forall_not_mem.2 fun k hk => by
    obtain ⟨c, hc, -⟩ := hrep.keys k hk
    exact notMem_zero c hc
  exact AList.ext (map_eq_nil_iff.1 hkeys)

theorem stripes_pos (S : Session) : 0 < S.stripes := Nat.succ_pos _

/-- The invariant holds in all runs of a session with an aligned offset. -/
theorem inv_of_run {all : Multiset Cell} {s0 s : System} {es : List Event}
    {held0 written0 : Nat → Multiset Cell}
    (halign : S.opts.peStripe ∣ S.offset) (hall : (offsets all).Nodup)
    (hinv : Inv S all s0 held0 written0) (hrun : Run (fun a e b => a.exec S e = some b) s0 es s) :
    ∃ held written, Inv S all s held written := by
  refine hrun.invariant (P := fun s => ∃ held written, Inv S all s held written)
    ⟨held0, written0, hinv⟩
    fun a e b ⟨held, written, ha⟩ hstep => ?_
  obtain ⟨b', hb', hinv'⟩ := exec_inv halign hall ha (enabled_of_exec hstep)
  rwa [some.inj (hstep.symm.trans hb')]

theorem right_of_suitable (h : S.Suitable) : S.Right := by
  intro calls hcalls
  obtain ⟨s0, hs0, hinv0⟩ := start_eq h.aligned h.few hcalls
  refine ⟨s0, hs0, fun es s hrun => ?_⟩
  obtain ⟨held, written, hinv⟩ := inv_of_run h.aligned hcalls.nodup hinv0 hrun
  have hlen := hinv.length
  have hpos := stripes_pos S
  have hcount : ∀ i < S.stripes, s.contributed.count i ≤ 1 := fun i hi => by
    rw [hinv.contributed i hi]
    split <;> omega
  refine ⟨fun e he => ?_, ?_, ?_, fun hsync => ?_, fun hcalls' hmsgs => ?_⟩
  · obtain ⟨s', hs', -⟩ := exec_inv h.aligned hcalls.nodup hinv he
    exact ⟨s', hs'⟩
  · have hle := file_le hinv
    rwa [allCells_eq_bytesOf, allCells_eq_bytesOf, coe_le] at hle
  · exact (synced_le (hlen ▸ hpos)).trans (hcount 0 hpos)
  · -- Each element has contributed, and so has written all its bytes.
    have hcard : ∀ i < S.stripes, (written i).card = S.myBytes i := fun i hi => by
      have hle : s.synced ≤ s.contributed.count i := synced_le (hlen ▸ hi)
      rw [hsync, hinv.contributed i hi] at hle
      by_contra hne
      rw [if_neg hne] at hle
      omega
    refine ⟨file_eq h.aligned hcalls hinv hcard, fun e he => ?_⟩
    obtain ⟨i, hi, hget⟩ := mem_iff_getElem.1 he
    have hi' : i < S.stripes := hlen ▸ hi
    obtain ⟨e', he', -, -, hrep⟩ := hinv.elements i hi'
    obtain rfl : e = e' := by
      rw [getElem?_eq_getElem hi, hget] at he'
      exact some.inj he'
    have hle := card_le_myBytes hinv hi'
    have hzero : held i = 0 := Multiset.card_eq_zero.1 (by have := hcard i hi'; omega)
    rw [hzero] at hrep
    exact bufferMap_eq_empty hrep
  · have hcard : ∀ i < S.stripes, (written i).card = S.myBytes i := fun i hi =>
      card_written_of_end h.aligned hcalls hinv h.small ⟨hcalls', hmsgs⟩ hi
    refine ⟨file_eq h.aligned hcalls hinv hcard, ?_⟩
    refine le_antisymm ((synced_le (hlen ▸ hpos)).trans (hcount 0 hpos))
      (le_synced (hlen ▸ hpos) fun i hi => ?_)
    rw [hlen] at hi
    rw [hinv.contributed i hi, if_pos (hcard i hi)]

/-- One call for the whole range. -/
def Session.wholeCall (session : Session) : Write := (session.offset, replicate session.bytes 0)

theorem partitioned_wholeCall (S : Session) : S.Partitioned [S.wholeCall] where
  inside call hcall := by
    rw [mem_singleton.1 hcall, Session.wholeCall, length_replicate]
    exact ⟨le_rfl, le_rfl⟩
  cover := by
    rw [bytesOf, flatMap_singleton, zipIdx_map_snd, Session.wholeCall, length_replicate]

theorem indexOf_eq : S.indexOf p = p / S.opts.peStripe - S.offset / S.opts.peStripe := by
  rw [Session.indexOf, mul_comm, Nat.sub_mul_div]

theorem indexOf_last (S : Session) : S.indexOf (S.offset + S.bytes - 1) + 1 = S.stripes := by
  have hpos := S.pos
  have hdiv := Nat.div_add_mod S.offset S.opts.peStripe
  have hsum : S.offset + S.bytes - 1 = S.offset % S.opts.peStripe + S.bytes - 1 +
      S.opts.peStripe * (S.offset / S.opts.peStripe) := by omega
  rw [indexOf_eq, hsum, Nat.add_mul_div_left _ _ S.peStripe_pos, Nat.add_sub_cancel,
    Session.stripes]

theorem exists_of_mapM {α β : Type} {f : α → Option β} {l : List α} {l' : List β}
    (h : l.mapM f = some l') : l'.length = l.length ∧ ∀ x ∈ l, ∃ y, f x = some y := by
  induction l generalizing l' with
  | nil =>
    obtain rfl : [] = l' := some.inj h
    exact ⟨rfl, nofun⟩
  | cons x l ih =>
    rw [mapM_cons] at h
    obtain ⟨y, hy, h⟩ := bind_eq_some_iff.1 h
    obtain ⟨ys, hys, h⟩ := bind_eq_some_iff.1 h
    obtain rfl : y :: ys = l' := some.inj h
    obtain ⟨hlen, hall⟩ := ih hys
    refine ⟨by rw [length_cons, length_cons, hlen], fun x' hx' => ?_⟩
    rcases mem_cons.1 hx' with rfl | hx'
    · exact ⟨y, hy⟩
    · exact hall x' hx'

/-- A call for the last byte, and one for the others. -/
theorem partitioned_last (S : Session) : S.Partitioned
    [(S.offset, replicate (S.bytes - 1) 0), (S.offset + (S.bytes - 1), [0])] where
  inside := by
    have hpos := S.pos
    simp
    omega
  cover := by
    have hlast := @range'_concat 1 S.offset (S.bytes - 1)
    rw [Nat.sub_add_cancel S.pos, one_mul] at hlast
    rw [bytesOf, flatMap_cons, flatMap_singleton, map_append, zipIdx_map_snd,
      length_replicate, hlast]
    rfl

/-- There is an element for the last byte. -/
theorem stripes_le_of_right (h : S.Right) : S.stripes ≤ S.numStripes.toNat := by
  obtain ⟨s0, hs0, hrun⟩ := h _ (partitioned_last S)
  obtain ⟨elements, helements, rfl⟩ := map_eq_some_iff.1 hs0
  have hlen := (exists_of_mapM helements).1
  rw [length_range] at hlen
  obtain ⟨s1, hs1⟩ := (hrun [] _ .nil).1 (.write (S.offset + (S.bytes - 1), [0]))
    (mem_cons_of_mem _ mem_cons_self)
  have hstep := hrun [.write _] s1 (.single hs1)
  obtain ⟨-, hs1⟩ := ite_none_right_eq_some.1 hs1
  obtain ⟨msgs, hmsgs, rfl⟩ := map_eq_some_iff.1 hs1
  obtain ⟨-, hmsgs⟩ := ite_none_right_eq_some.1 hmsgs
  obtain ⟨offset, data, hmem⟩ : ∃ offset data,
      ⟨S.indexOf (S.offset + (S.bytes - 1)), offset, data⟩ ∈ msgs := by
    rw [← some.inj hmsgs, length_singleton, Session.writeLoop, if_neg (cons_ne_nil _ _)]
    exact ⟨_, _, mem_cons_self⟩
  obtain ⟨s2, hs2⟩ := hstep.1 (.forwardData _) (mem_append_right _ hmem)
  obtain ⟨-, hs2⟩ := ite_none_right_eq_some.1 hs2
  obtain ⟨e, he, -⟩ := bind_eq_some_iff.1 hs2
  have hlt := (List.getElem?_eq_some_iff.1 he).1
  have hindex := indexOf_last S
  rw [Nat.add_sub_assoc S.pos] at hindex
  dsimp only at hlt
  omega

theorem suitable_of_right (h : S.Right) : S.Suitable := by
  have hle := stripes_le_of_right h
  have hpos := stripes_pos S
  have hfew : S.stripes < 2 ^ 31 := by
    have hbounds := toInt32_bounds S.stripes
    rw [S.numStripes_eq] at hle
    omega
  have halign : S.opts.peStripe ∣ S.offset := by
    -- The constructor of the first element has succeeded.
    obtain ⟨s0, hs0, -⟩ := h _ (partitioned_wholeCall S)
    obtain ⟨elements, helements, -⟩ := map_eq_some_iff.1 hs0
    obtain ⟨e, he⟩ := (exists_of_mapM helements).2 0 (mem_range.2 (by omega))
    obtain ⟨⟨hoff, -⟩, -⟩ := ite_none_right_eq_some.1 he
    exact ⟨S.offset / S.opts.peStripe, by
      rw [mul_comm]
      exact le_antisymm hoff (Nat.div_mul_le_self _ _)⟩
  refine ⟨halign, hfew, fun p hp => ?_⟩
  -- In the end the byte has been written, with its stripe.
  have hcalls := partitioned_wholeCall S
  obtain ⟨s0, hs0, hrun0⟩ := h _ hcalls
  obtain ⟨s0', hs0', hinv0⟩ := start_eq halign hfew hcalls
  obtain rfl : s0 = s0' := some.inj (hs0.symm.trans hs0')
  obtain ⟨es, s, hrun, hnone, hnone', held, written, hinv⟩ := exists_end halign hcalls.nodup hinv0
  have hfile := ((hrun0 es s hrun).2.2.2.2 hnone hnone').1
  rw [← Multiset.coe_eq_coe, ← allCells_eq_bytesOf, ← allCells_eq_bytesOf] at hfile
  have hmem : p ∈ offsets (allCells s.file) := by
    rw [hfile, hcalls.offsets_eq, mem_coe, mem_range'_1]
    exact hp
  rw [hinv.file] at hmem
  obtain ⟨c, hc, rfl⟩ := mem_map.1 hmem
  obtain ⟨i, hi, hc⟩ := mem_sum.1 hc
  obtain ⟨e, -, hoff, hbytes, hrep⟩ := hinv.elements i (Finset.mem_range.1 hi)
  have hmine := hrep.mine c (mem_add.2 (.inr hc))
  rw [WriteSession.Mine, hoff, hbytes, Session.mem_element_iff halign hp] at hmine
  rw [← expectedBufferSize_eq (by rw [hmine, hoff]) (by rw [hmine, hbytes])]
  exact (hrep.whole c hc).1

end Right

/-- A session works if and only if its offset is a multiple of the PE stripe, and its numbers of
elements and of bytes in each buffer fit in an `int`. -/
theorem session_right_iff (session : Session) : session.Right ↔ session.Suitable :=
  ⟨suitable_of_right, right_of_suitable⟩

/-- A session from offset 2 on, with PE stripes of 4 bytes: the first element begins at offset 0,
before the session, and its constructor aborts. -/
theorem session_unaligned : ∃ session : Session, session.offset = 2 ∧ session.bytes = 3 ∧
    session.opts.peStripe = 4 ∧ session.opts.writeStripe = 2 ∧ session.Partitioned
    [(2, [7, 8, 9])] ∧ System.start session [(2, [7, 8, 9])] = none := by
  refine ⟨⟨⟨4, 2, by decide, by decide⟩, 2, 3, by decide, by omega⟩, rfl, rfl, rfl, rfl,
    ⟨?_, ?_⟩, ?_⟩
  · simp
  · decide
  · decide

end CharmRuntime.CkIO
