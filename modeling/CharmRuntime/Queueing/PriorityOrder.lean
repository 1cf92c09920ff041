import CharmRuntime.Queueing.Scheduler

/-!
# Priority order and conservation of messages

The abstract scheduler queue is a multiset of messages, each at a `Place`: in front of the zero
priorities with a key, at priority zero, or behind them with a key. An enqueue adds one message
(`PQStep`), and a dequeue removes one whose place is minimal, or answers null when there is none.

Every run of the queue whose priorities have fewer than `2 ^ 16` bits is a run of the abstract queue
over the stored messages (`run_pqStep`); messages are neither lost nor duplicated, and the length is
their number (`priorityOrder`). Longer priorities do not fit in the 16-bit fields of `prio_struct`:
a priority of `2 ^ 16` bits is found again as one of no bits (`longPriority_overtaken`).
-/

set_option autoImplicit false

namespace CharmRuntime.Queueing

open Lib List Option
open Multiset (card coe_add add_cons cons_add card_cons card_eq_zero)

universe u

variable {α : Type u}

/-- Where a message is stored: the part of the queue and the values of the words of its key. -/
inductive Place where
  | neg (key : List Nat)
  | zero
  | pos (key : List Nat)

/-- The service order: negative keys, then zero, then positive keys, and inside one priority queue
the lexicographic order of the words, a proper prefix first. -/
def Place.le : Place → Place → Prop
  | .neg a, .neg b => a ≤ b
  | .neg _, _ => True
  | .zero, .neg _ => False
  | .zero, _ => True
  | .pos a, .pos b => a ≤ b
  | .pos _, _ => False

/-- The strict service order. -/
def Place.lt (p q : Place) : Prop := p.le q ∧ ¬ q.le p

/-- The place a target stands for. -/
def Target.place : Target → Place
  | .zero => .zero
  | .prio true priobits words => .pos ((words.take (prioInts priobits)).map BitVec.toNat)
  | .prio false priobits words => .neg ((words.take (prioInts priobits)).map BitVec.toNat)

/-- The stored messages with their places. -/
def Queue.stored (q : Queue α) : Multiset (Place × α) :=
  (q.negprioq.stored.map fun p => (Place.neg p.1, p.2)) +
    ((q.zeroprio.toList.map fun m => (Place.zero, m) : List (Place × α)) : Multiset (Place × α)) +
    q.posprioq.stored.map fun p => (Place.pos p.1, p.2)

/-- The abstract scheduler queue. -/
def PQStep (little : Bool) (s : Multiset (Place × α)) (e : QEvent α) (s' : Multiset (Place × α)) :
    Prop :=
  match e with
  | .dequeue none => s = 0 ∧ s' = s
  | .dequeue (some m) => ∃ pl, s = (pl, m) ::ₘ s' ∧ ∀ p ∈ s, pl.le p.1
  | e => ∃ t lifo data, e.insertion little = some (t, lifo, data) ∧ s' = (t.place, data) ::ₘ s

/-- What every call keeps. -/
structure Queue.Inv (q : Queue α) : Prop where
  neg : q.negprioq.Inv
  pos : q.posprioq.Inv
  zero : ∃ l, q.zeroprio.Rep l
  length_eq : q.length = card q.stored

/-- The key of a target fits in the 16-bit fields of `prio_struct`. -/
def Target.Fits : Target → Prop
  | .zero => True
  | .prio _ priobits _ => priobits.toNat < 2 ^ 16

/-- The priority of a call, if it has one, has fewer than `2 ^ 16` bits. -/
def QEvent.Fits (e : QEvent α) : Prop :=
  match e with
  | .enqueueGeneral _ strategy priobits _ =>
    match strategy with
    | .bfifo | .blifo | .lfifo | .llifo => priobits.toNat < 2 ^ 16
    | _ => True
  | _ => True

variable {little : Bool} {t : Target} {e : QEvent α} {es : List (QEvent α)} {q : Queue α}

theorem QEvent.Selects.fits (h : e.Selects little t) (he : e.Fits) : t.Fits := by
  cases h with
  | zero => trivial
  | int p => exact (by decide : cintBits.toNat < 2 ^ 16)
  | noBits prioptr => exact (by decide : (0 : Word).toNat < 2 ^ 16)
  | bits hs => rcases hs with rfl | rfl <;> exact he
  | long x hs => rcases hs with ⟨rfl, -⟩ | rfl <;> exact he

/-! ## The operations on the stored messages -/

section Operations

variable {q q' : Queue α}

theorem inv_cqsCreate : (cqsCreate : Queue α).Inv where
  neg := inv_cqsPrioqInit
  pos := inv_cqsPrioqInit
  zero := ⟨[], rep_cqsDeqInit⟩
  length_eq := by
    have hz := (rep_cqsDeqInit (α := α)).toList_eq
    simp [cqsCreate, Queue.stored, stored_cqsPrioqInit, hz]

/-- An insertion adds one message at the place of its target. -/
theorem Queue.Inv.stored_insertAt (h : q.Inv) (hs : t.Supplied) (hf : t.Fits)
    (lifo : Bool) (data : α) : (q.insertAt t lifo data).stored = (t.place, data) ::ₘ q.stored := by
  cases t with
  | zero =>
    obtain ⟨l, hl⟩ := h.zero
    simp only [Queue.stored, Queue.insertAt, (rep_deqPut hl lifo data).toList_eq, hl.toList_eq,
      Target.place]
    have hput : (((if lifo then data :: l else l ++ [data]).map fun m => (Place.zero, m) :
        List (Place × α)) : Multiset (Place × α)) =
        (Place.zero, data) ::ₘ ((l.map fun m => (Place.zero, m) : List (Place × α)) :
          Multiset (Place × α)) := by
      cases lifo with
      | true => rfl
      | false =>
        rw [if_neg (by simp), map_append, ← coe_add, add_comm]
        rfl
    rw [hput, add_cons, cons_add]
  | prio positive bits words =>
    cases positive with
    | true =>
      simp only [Queue.stored, Queue.insertAt, h.pos.stored_put hf hs lifo data, Multiset.map_cons,
        add_cons, Target.place]
    | false =>
      simp only [Queue.stored, Queue.insertAt, h.neg.stored_put hf hs lifo data, Multiset.map_cons,
        cons_add, Target.place]

theorem bump_stored : q.bump.stored = q.stored := rfl

/-- An insertion keeps the invariant. -/
theorem Queue.Inv.insertAt (h : q.Inv) (hs : t.Supplied) (hf : t.Fits) (lifo : Bool)
    (data : α) : (q.insertAt t lifo data).bump.Inv := by
  have hlen : (q.insertAt t lifo data).bump.length = card (q.insertAt t lifo data).bump.stored := by
    rw [bump_stored, h.stored_insertAt hs hf, card_cons, ← h.length_eq]
    cases t with
    | zero => rfl
    | prio positive bits words => cases positive <;> rfl
  obtain ⟨l, hl⟩ := h.zero
  cases t with
  | zero => exact ⟨h.neg, h.pos, ⟨_, rep_deqPut hl lifo data⟩, hlen⟩
  | prio positive bits words =>
    cases positive with
    | true => exact ⟨h.neg, h.pos.put hf hs lifo data, ⟨l, hl⟩, hlen⟩
    | false => exact ⟨h.neg.put hf hs lifo data, h.pos, ⟨l, hl⟩, hlen⟩

theorem Queue.Inv.stored_eq_zero_iff (h : q.Inv) : q.stored = 0 ↔
    q.negprioq.heapnext = 1 ∧ q.zeroprio.head = q.zeroprio.tail ∧ q.posprioq.heapnext = 1 := by
  obtain ⟨l, hl⟩ := h.zero
  rw [hl.head_eq_tail_iff, ← h.neg.stored_eq_zero_iff, ← h.pos.stored_eq_zero_iff, Queue.stored,
    hl.toList_eq]
  simp only [← card_eq_zero, Multiset.card_add, Multiset.card_map, Multiset.coe_card, length_map,
    Nat.add_eq_zero_iff, length_eq_zero_iff, and_assoc]

theorem Queue.mem_stored {pl : Place} {x : α} (h : (pl, x) ∈ q.stored) : match pl with
    | .neg k => (k, x) ∈ q.negprioq.stored
    | .zero => x ∈ q.zeroprio.toList
    | .pos k => (k, x) ∈ q.posprioq.stored := by
  cases pl <;> simpa [Queue.stored] using h

/-- `CqsDequeue` takes a message from the first part that has one. -/
inductive Dequeues (q : Queue α) : Option α → Queue α → Prop where
  | none : q.negprioq.heapnext = 1 → q.zeroprio.head = q.zeroprio.tail → q.posprioq.heapnext = 1 →
      Dequeues q none q
  | neg : 1 < q.negprioq.heapnext → Dequeues q (cqsPrioqDequeue q.negprioq).1
      { q with negprioq := (cqsPrioqDequeue q.negprioq).2, length := q.length - 1 }
  | zero : q.negprioq.heapnext = 1 → q.zeroprio.head ≠ q.zeroprio.tail →
      Dequeues q (cqsDeqDequeue q.zeroprio).1
        { q with zeroprio := (cqsDeqDequeue q.zeroprio).2, length := q.length - 1 }
  | pos : q.negprioq.heapnext = 1 → q.zeroprio.head = q.zeroprio.tail → 1 < q.posprioq.heapnext →
      Dequeues q (cqsPrioqDequeue q.posprioq).1
        { q with posprioq := (cqsPrioqDequeue q.posprioq).2, length := q.length - 1 }

variable (h : q.Inv)

include h

theorem Queue.Inv.dequeues : Dequeues q (cqsDequeue q).1 (cqsDequeue q).2 := by
  have hn := h.neg.heapnext_pos
  have hp := h.pos.heapnext_pos
  unfold cqsDequeue
  split
  · next h0 =>
    -- the counter answers the question for all three parts
    have hz : q.stored = 0 := by rw [← card_eq_zero, ← h.length_eq, h0]
    obtain ⟨hneg, hzero, hpos⟩ := h.stored_eq_zero_iff.1 hz
    exact .none hneg hzero hpos
  · split
    · next hneg => exact .neg hneg
    · split
      · next hzero => exact .zero (by omega) hzero
      · next hzero =>
        split
        · next hpos => exact .pos (by omega) (not_not.1 hzero) hpos
        · exact .none (by omega) (not_not.1 hzero) (by omega)

/-- Once the removed message is known, the length and the invariant follow. -/
theorem Queue.Inv.taken {resp : Option α} (pl : Place) {m : α}
    (hm : resp = some m) (hst : q.stored = (pl, m) ::ₘ q'.stored) (hmin : ∀ p ∈ q.stored, pl.le p.1)
    (hn : q'.negprioq.Inv) (hp : q'.posprioq.Inv) (hzero : ∃ l, q'.zeroprio.Rep l)
    (hlen : q'.length = q.length - 1) : ∃ pl m, resp = some m ∧ q.stored = (pl, m) ::ₘ q'.stored ∧
      (∀ p ∈ q.stored, pl.le p.1) ∧ q'.Inv := by
  refine ⟨pl, m, hm, hst, hmin, hn, hp, hzero, ?_⟩
  rw [hlen, h.length_eq, hst, card_cons, Nat.add_sub_cancel]

/-- What a dequeue does to the stored messages. -/
theorem Queue.Inv.stored_cqsDequeue :
    ((cqsDequeue q).1 = none ∧ (cqsDequeue q).2 = q ∧ q.stored = 0) ∨
      ∃ pl m, (cqsDequeue q).1 = some m ∧ q.stored = (pl, m) ::ₘ (cqsDequeue q).2.stored ∧
        (∀ p ∈ q.stored, pl.le p.1) ∧ (cqsDequeue q).2.Inv := by
  obtain ⟨l, hl⟩ := h.zero
  have hd := h.dequeues
  generalize (cqsDequeue q).1 = resp, (cqsDequeue q).2 = q' at hd ⊢
  cases hd with
  | none hneg hzero hpos => exact .inl ⟨rfl, rfl, h.stored_eq_zero_iff.2 ⟨hneg, hzero, hpos⟩⟩
  | neg hneg =>
    obtain ⟨k, m, hm, hst, hmin⟩ := h.neg.stored_cqsPrioqDequeue hneg
    refine .inr (h.taken (.neg k) hm ?_ ?_ h.neg.cqsPrioqDequeue h.pos h.zero rfl)
    · simp only [Queue.stored, hst, Multiset.map_cons, cons_add]
    · rintro ⟨k' | _ | _, x⟩ hx
      · exact hmin (k', x) (mem_stored hx)
      · trivial
      · trivial
  | zero hneg hzero =>
    cases l with
    | nil => exact absurd (hl.head_eq_tail_iff.2 rfl) hzero
    | cons m l =>
      obtain ⟨hm, hrest⟩ := cqsDeqDequeue_cons hl
      refine .inr (h.taken .zero hm ?_ ?_ h.neg h.pos ⟨l, hrest⟩ rfl)
      · simp only [Queue.stored, hl.toList_eq, hrest.toList_eq, map_cons]
        rw [← Multiset.cons_coe, add_cons, cons_add]
      · rintro ⟨_ | _ | _, x⟩ hx
        · exact absurd (mem_stored hx) (h.neg.stored_eq_zero_iff.2 hneg ▸ Multiset.notMem_zero _)
        · trivial
        · trivial
  | pos hneg hzero hpos =>
    obtain ⟨k, m, hm, hst, hmin⟩ := h.pos.stored_cqsPrioqDequeue hpos
    refine .inr (h.taken (.pos k) hm ?_ ?_ h.neg h.pos.cqsPrioqDequeue h.zero rfl)
    · simp only [Queue.stored, hst, Multiset.map_cons, add_cons]
    · rintro ⟨_ | _ | k', x⟩ hx
      · exact absurd (mem_stored hx) (h.neg.stored_eq_zero_iff.2 hneg ▸ Multiset.notMem_zero _)
      · have hx := mem_stored hx
        rw [hl.toList_eq, hl.head_eq_tail_iff.1 hzero] at hx
        cases hx
      · exact hmin (k', x) (mem_stored hx)

/-- One call is one step of the abstract queue. -/
theorem Queue.Inv.pqStep (hf : e.Fits)
    (hstep : QStep little q e q') : PQStep little q.stored e q'.stored ∧ q'.Inv := by
  rcases qStep_cases hstep with ⟨rfl, rfl⟩ | ⟨t, lifo, data, hins, rfl⟩
  · rcases h.stored_cqsDequeue with ⟨hn, hq, hz⟩ | ⟨pl, m, hm, hst, hmin, hinv⟩
    · rw [hn, hq]
      exact ⟨⟨hz, rfl⟩, h⟩
    · rw [hm]
      exact ⟨⟨pl, hst, hmin⟩, hinv⟩
  · have hs := (insertion_selects hins).supplied
    have ht := (insertion_selects hins).fits hf
    refine ⟨?_, h.insertAt hs ht lifo data⟩
    have hstored := h.stored_insertAt hs ht lifo data
    cases e with
    | dequeue resp => cases hins
    | enqueue | enqueueFifo | enqueueLifo | enqueueGeneral => exact ⟨t, lifo, data, hins, hstored⟩

end Operations

/-- Every run whose priorities fit is a run of the abstract queue over the stored messages. -/
theorem run_pqStep (hrun : Run (QStep little) cqsCreate es q) (hfits : ∀ e ∈ es, e.Fits) :
    Run (PQStep little) 0 es q.stored ∧ q.Inv := by
  induction hrun with
  | nil =>
    have h0 : (cqsCreate : Queue α).stored = 0 := by
      rw [← card_eq_zero, ← inv_cqsCreate.length_eq]
      rfl
    rw [h0]
    exact ⟨Run.nil, inv_cqsCreate⟩
  | snoc _ hlast ih =>
    obtain ⟨hrun, hinv⟩ := ih fun e he => hfits e (mem_append_left _ he)
    obtain ⟨hstep, hinv'⟩ := hinv.pqStep (hfits _ (by simp)) hlast
    exact ⟨Run.snoc hrun hstep, hinv'⟩

/-! ## Conservation -/

/-- The message a call enqueues. -/
def QEvent.enqueued : QEvent α → Multiset α
  | .enqueue data | .enqueueFifo data | .enqueueLifo data | .enqueueGeneral data _ _ _ => {data}
  | .dequeue _ => 0

/-- The message a call returns. -/
def QEvent.returned : QEvent α → Multiset α
  | .dequeue (some m) => {m}
  | _ => 0

theorem insertion_enqueued {lifo : Bool} {data : α}
    (h : e.insertion little = some (t, lifo, data)) : e.enqueued = {data} ∧ e.returned = 0 := by
  cases e with
  | enqueue | enqueueFifo | enqueueLifo => cases h; exact ⟨rfl, rfl⟩
  | enqueueGeneral d strategy bits prioptr =>
    obtain ⟨t', -, he⟩ := map_eq_some_iff.1 h
    cases he
    exact ⟨rfl, rfl⟩
  | dequeue resp => cases h

/-- In the abstract queue the returned and the stored messages are the enqueued ones. -/
theorem pqStep_conservation {s : Multiset (Place × α)} (hrun : Run (PQStep little) 0 es s) :
    (es.map QEvent.returned).sum + s.map Prod.snd = (es.map QEvent.enqueued).sum := by
  induction hrun with
  | nil => rfl
  | @snoc es t u e _ hlast ih =>
    have hins : (∃ tg lifo data, e.insertion little = some (tg, lifo, data) ∧
        u = (tg.place, data) ::ₘ t) →
        (((es ++ [e]).map QEvent.returned).sum + u.map Prod.snd : Multiset α) =
          ((es ++ [e]).map QEvent.enqueued).sum := by
      rintro ⟨tg, lifo, data, hins, rfl⟩
      obtain ⟨h1, h2⟩ := insertion_enqueued hins
      simp only [map_append, map_cons, map_nil, sum_append, sum_cons,
        sum_nil, h1, h2, add_zero, Multiset.map_cons]
      rw [← ih, ← Multiset.singleton_add, add_assoc, add_comm (Multiset.map Prod.snd t)]
    cases e with
    | dequeue resp =>
      cases resp with
      | none =>
        obtain ⟨-, rfl⟩ := hlast
        simpa [QEvent.returned, QEvent.enqueued] using ih
      | some m =>
        obtain ⟨pl, rfl, -⟩ := hlast
        simp only [map_append, map_cons, map_nil, sum_append, sum_cons,
          sum_nil, QEvent.returned, QEvent.enqueued, add_zero]
        rw [← ih, Multiset.map_cons, ← Multiset.singleton_add, add_assoc]
    | enqueue | enqueueFifo | enqueueLifo | enqueueGeneral => exact hins hlast

/-! ## Signed integer priorities -/

/-- The place of a key whose first word selects the part of the queue by its sign bit. -/
theorem signedPlace_lt_iff (b b' : Word) (w w' : Word) (ws ws' : List Word)
    (h : prioInts b = ws.length + 1) (h' : prioInts b' = ws'.length + 1) :
    (Target.prio w.msb b (w :: ws)).place.lt (Target.prio w'.msb b' (w' :: ws')).place ↔
      (w :: ws).map BitVec.toNat < (w' :: ws').map BitVec.toNat := by
  have ht : (w :: ws).take (prioInts b) = w :: ws := take_of_length_le (by simp [h])
  have ht' : (w' :: ws').take (prioInts b') = w' :: ws' := take_of_length_le (by simp [h'])
  have hw := BitVec.msb_eq_decide w
  have hw' := BitVec.msb_eq_decide w'
  cases hm : w.msb with
  | true =>
    cases hm' : w'.msb with
    | true =>
      simp only [Target.place, ht, ht', Place.lt, Place.le, not_le, and_iff_right_iff_imp]
      exact le_of_lt
    | false =>
      rw [hm, eq_comm, decide_eq_true_eq] at hw
      rw [hm', eq_comm, decide_eq_false_iff_not] at hw'
      simp only [Target.place, Place.lt, Place.le, false_and, map_cons, false_iff, cons_lt_cons_iff]
      omega
  | false =>
    cases hm' : w'.msb with
    | true =>
      rw [hm, eq_comm, decide_eq_false_iff_not] at hw
      rw [hm', eq_comm, decide_eq_true_eq] at hw'
      simp only [Target.place, Place.lt, Place.le, not_false_eq_true, and_true, map_cons,
        true_iff, cons_lt_cons_iff]
      omega
    | false =>
      simp only [Target.place, ht, ht', Place.lt, Place.le, not_le, and_iff_right_iff_imp]
      exact le_of_lt

/-- Integer priorities are served in the signed order. -/
theorem intTarget_lt_iff (p p' : Word) : (Target.prio (biasInt p).msb cintBits [biasInt p]).place.lt
      (Target.prio (biasInt p').msb cintBits [biasInt p']).place ↔ p.toInt < p'.toInt := by
  rw [signedPlace_lt_iff _ _ _ _ _ _ rfl rfl, ← biasInt_lt_iff]
  simp [cons_lt_cons_iff]

theorem msb_high_word (x : BitVec 64) : ((x >>> 32).setWidth 32).msb = x.msb := by
  rw [BitVec.msb_eq_decide, BitVec.msb_eq_decide, BitVec.toNat_setWidth, BitVec.toNat_ushiftRight,
    Nat.shiftRight_eq_div_pow]
  rw [decide_eq_decide]
  omega

theorem prioInts_clongBits : prioInts clongBits = 2 := by decide

/-- 64-bit priorities are served in the signed order, on a machine of either byte order. -/
theorem longTarget_lt_iff (little : Bool) (x x' : BitVec 64) :
    (Target.prio (biasLong x).msb clongBits (longWords little (lprio little (biasLong x)))).place.lt
      (Target.prio (biasLong x').msb clongBits
        (longWords little (lprio little (biasLong x')))).place ↔ x.toInt < x'.toInt := by
  rw [longWords_lprio, longWords_lprio, ← msb_high_word (biasLong x), ← msb_high_word (biasLong x'),
    signedPlace_lt_iff _ _ _ _ _ _ prioInts_clongBits prioInts_clongBits, longWords_lt_iff,
    biasLong_lt_iff]

/-! ## The main result -/

/-- A priority of 40 bits, the default priority and two integers, enqueued and dequeued. -/
def fourMessages : List (QEvent Nat) :=
  [.enqueueGeneral 1 .bfifo 40 [0x80000000, 7], .enqueueFifo 2, .enqueueGeneral 3 .ififo 0 [5],
    .enqueueGeneral 4 .ilifo 0 [0xFFFFFFFF], .dequeue (some 4), .dequeue (some 2),
    .dequeue (some 1), .dequeue (some 3)] ++ [.dequeue none]

/-- Along every run whose priorities have fewer than `2 ^ 16` bits the queue is a priority queue
over its stored messages: nothing is lost or duplicated, the length counts the stored messages, null
is answered exactly when there is none, and every dequeued message is minimal (`PQStep`). Integer
and 64-bit priorities are ordered as signed numbers. -/
theorem priorityOrder {little : Bool} {es : List (QEvent α)} {q : Queue α}
    (hrun : Run (QStep little) cqsCreate es q) (hfits : ∀ e ∈ es, e.Fits) :
    Run (PQStep little) 0 es q.stored ∧
    (es.map QEvent.returned).sum + q.stored.map Prod.snd = (es.map QEvent.enqueued).sum ∧
    q.length = card q.stored ∧ ((cqsDequeue q).1 = none ↔ q.stored = 0) ∧
    (∀ s ∈ [Strategy.ififo, .ilifo], ∀ s' ∈ [Strategy.ififo, .ilifo], ∀ b b' p p' rest rest' t t',
      target little s b (p :: rest) = some t → target little s' b' (p' :: rest') = some t' →
      (t.place.lt t'.place ↔ p.toInt < p'.toInt)) ∧
    (∀ s ∈ [Strategy.lfifo, .llifo], ∀ s' ∈ [Strategy.lfifo, .llifo], ∀ w0 w1 w0' w1' rest rest'
      t t', target little s clongBits (w0 :: w1 :: rest) = some t →
      target little s' clongBits (w0' :: w1' :: rest') = some t' → (t.place.lt t'.place ↔
        (loadLong little w0 w1).toInt < (loadLong little w0' w1').toInt)) := by
  obtain ⟨habs, hinv⟩ := run_pqStep hrun hfits
  refine ⟨habs, pqStep_conservation habs, hinv.length_eq, ?_, ?_, ?_⟩
  · rcases hinv.stored_cqsDequeue with ⟨hn, -, hz⟩ | ⟨pl, m, hm, hst, -⟩
    · exact iff_of_true hn hz
    · rw [hm, hst]
      exact iff_of_false (by simp) (Multiset.cons_ne_zero)
  · intro s hs s' hs' b b' p p' rest rest' t t' ht ht'
    have hint : ∀ s ∈ [Strategy.ififo, .ilifo], ∀ b p rest t,
        target little s b (p :: rest) = some t →
        t = .prio (biasInt p).msb cintBits [biasInt p] := by
      intro s hs b p rest t ht
      simp only [mem_cons, not_mem_nil, or_false] at hs
      rcases hs with rfl | rfl
      · exact (some.inj ht).symm
      · exact (some.inj ht).symm
    rw [hint s hs b p rest t ht, hint s' hs' b' p' rest' t' ht']
    exact intTarget_lt_iff p p'
  · intro s hs s' hs' w0 w1 w0' w1' rest rest' t t' ht ht'
    have hlong : ∀ s ∈ [Strategy.lfifo, .llifo], ∀ w0 w1 rest t,
        target little s clongBits (w0 :: w1 :: rest) = some t →
        t = .prio (biasLong (loadLong little w0 w1)).msb clongBits
          (longWords little (lprio little (biasLong (loadLong little w0 w1)))) := by
      intro s hs w0 w1 rest t ht
      simp only [mem_cons, not_mem_nil, or_false] at hs
      rcases hs with rfl | rfl <;>
        simpa only [target, longTarget, prioInts_clongBits, lt_irrefl, if_true, if_false,
          some.injEq, eq_comm] using ht
    rw [hlong s hs w0 w1 rest t ht, hlong s' hs' w0' w1' rest' t' ht']
    exact longTarget_lt_iff little _ _

theorem qStep_dequeue {resp : Option α} (h : (cqsDequeue q).1 = resp) :
    QStep little q (.dequeue resp) (cqsDequeue q).2 :=
  Prod.ext h rfl

/-- Four messages are returned in the order of their priorities, and then null is. -/
theorem priorityOrder_four_messages : ∃ q : Queue Nat, Run (QStep true) cqsCreate fourMessages q ∧
      Run (PQStep true) 0 fourMessages q.stored ∧
      (fourMessages.map QEvent.returned).sum + q.stored.map Prod.snd =
        (fourMessages.map QEvent.enqueued).sum ∧ q.stored = 0 := by
  obtain ⟨q, hrun⟩ : ∃ q : Queue Nat, Run (QStep true) cqsCreate fourMessages q := by
    refine ⟨_, .cons rfl <| .cons rfl <| .cons rfl <| .cons rfl <| .cons (qStep_dequeue ?_) <|
      .cons (qStep_dequeue ?_) <| .cons (qStep_dequeue ?_) <| .cons (qStep_dequeue ?_) <|
      .single (qStep_dequeue ?_)⟩
    all_goals decide +kernel
  obtain ⟨habs, hcons, -⟩ := priorityOrder hrun (by simp [fourMessages, QEvent.Fits])
  obtain ⟨s, -, hnull⟩ := (Run.concat_iff _).1 habs
  exact ⟨q, hrun, habs, hcons, hnull.2.trans hnull.1⟩

/-! ## Priorities that do not fit -/

/-- A priority of `2 ^ 16` bits: the word `2 ^ 16`, followed by zero words. The first word cancels
the number of bits in the hash, which is that of the empty priority. -/
def longKey : List Word := 65536 :: replicate 2047 0

theorem prioInts_longKey : prioInts 65536 = 2048 := by decide

theorem longKey_length : longKey.length = 2048 := by
  rw [longKey, length_cons, length_replicate]

/-- In the abstract queue the message of the empty priority precedes that of the long one. -/
theorem not_pqStep_longKey {m m' : α} (hne : m ≠ m') (s : Multiset (Place × α)) :
    ¬ PQStep little (((Target.prio false 0 []).place, m') ::ₘ
      ((Target.prio false 65536 longKey).place, m) ::ₘ 0) (.dequeue (some m)) s := by
  rintro ⟨pl, hpl, hmin⟩
  have hmem : (pl, m) ∈ (pl, m) ::ₘ s := Multiset.mem_cons_self _ _
  have hle := hmin _ (Multiset.mem_cons_self _ _)
  rw [← hpl] at hmem
  simp only [Multiset.mem_cons, Prod.mk.injEq, Multiset.notMem_zero, or_false] at hmem
  rcases hmem with ⟨-, h⟩ | ⟨rfl, -⟩
  · exact hne h
  · exact absurd (nil_lt_cons _ _) (not_lt.2 hle)

/-- The long priority and the empty one share a bucket, so that the message of the long priority is
returned although the one of the empty priority precedes it. -/
theorem longPriority_overtaken :
    ∃ (es : List (QEvent Nat)) (q : Queue Nat), Run (QStep true) cqsCreate es q ∧
      ¬ ∃ s, Run (PQStep true) 0 es s := by
  have hlong : target true .bfifo 65536 longKey = some (.prio false 65536 longKey) := by
    simp only [target, bitsTarget, longKey_length, prioInts_longKey]
    rfl
  have hstep1 : QStep true cqsCreate (.enqueueGeneral 0 .bfifo 65536 longKey)
      (cqsCreate.insertAt (.prio false 65536 longKey) false 0).bump :=
    qStep_enqueueGeneral hlong (by decide +kernel) 0
  -- The empty priority opens no bucket: the scan finds that of the long one.
  have hstep2 : QStep true (cqsCreate.insertAt (.prio false 65536 longKey) false 0).bump
      (.enqueueGeneral 1 .bfifo 0 [])
      ((cqsCreate.insertAt (.prio false 65536 longKey) false 0).bump.insertAt
        (.prio false 0 []) false 1).bump :=
    qStep_enqueueGeneral rfl (by decide +kernel) 1
  -- Both messages are in the deque at the root, the one of the long priority in front.
  have hstep3 : (cqsDequeue ((cqsCreate.insertAt (.prio false 65536 longKey) false 0).bump.insertAt
      (.prio false 0 []) false 1).bump).1 = some 0 := by decide +kernel
  refine ⟨[_, _, _], _, ((Run.single hstep1).snoc hstep2).snoc (qStep_dequeue hstep3), ?_⟩
  rintro ⟨s, hs⟩
  obtain ⟨s2, h2, hstep⟩ := (Run.concat_iff [_, _]).1 hs
  obtain ⟨s1, h1, t, lifo, d, ht, rfl⟩ := (Run.concat_iff [_]).1 h2
  obtain ⟨s0, h0, t', lifo', d', ht', rfl⟩ := (Run.concat_iff []).1 h1
  cases Run.nil_iff.1 h0
  rw [QEvent.insertion, hlong] at ht'
  cases ht
  cases ht'
  exact not_pqStep_longKey (by decide) s hstep

end CharmRuntime.Queueing
