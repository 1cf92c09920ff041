import CharmRuntime.Queueing.PriorityOrder

/-!
# The order of messages of one priority

The abstract scheduler queue here is one deque per priority key (`DequeStep`): an enqueue inserts at
the tail or at the head of the deque of its key, and a dequeue takes the first message of one of the
deques.

`CqsPrioqGetDeq` scans, and inserts into, the chain given by the hash value modulo `PRIOQ_TABSIZE`,
while `CqsPrioqRehash` distributes the buckets modulo the doubled table size. A rehash that moves a
live bucket out of the chain that is scanned for it makes the bucket unreachable, and the next
message of its priority opens a second bucket (`rehash_overtakes`). In every run whose rehashes move
no bucket so (`Prioq.RehashAgrees`), and whose keys fit in 16 bits, the queue is the abstract one
(`samePriorityOrder`).
-/

set_option autoImplicit false

namespace CharmRuntime.Queueing

open Lib Function List

universe u

variable {α : Type u}

/-- A priority key: its number of bits and its words. -/
abbrev Key := Word × List Word

/-- The key of a priority of `priobits` bits that is read from `words`. -/
def keyFrom (priobits : Word) (words : List Word) : Key :=
  (priobits, words.take (prioInts priobits))

/-- The hash value of a key. -/
def Key.hash (k : Key) : Word := prioHash k.1 k.2

/-- The key stored in a bucket. -/
def Prioqelt.key (e : Prioqelt α) : Key := (e.pri.bits.setWidth 32, e.pri.data)

/-- Insert at the head or at the tail. -/
def putList (lifo : Bool) (l : List α) (data : α) : List α :=
  if lifo then data :: l else l ++ [data]

/-- If a new bucket for the key makes the table grow, every bucket stays in the chain that is
scanned for it. -/
def Prioq.RehashAgrees (pq : Prioq α) (k : Key) : Prop :=
  (∀ pe ∈ pq.live, (pq.elts pe).key ≠ k) → pq.hashEntrySize + 1 > 2 * pq.hashKeySize →
    hashIndex k.hash (pq.hashKeySize * 2) = hashIndex k.hash prioqTabsize ∧
      ∀ pe ∈ pq.live, hashIndex (pq.elts pe).key.hash (pq.hashKeySize * 2) =
        hashIndex (pq.elts pe).key.hash prioqTabsize

/-- The priority queue holds the deques `a`: the bucket of a key is in the chain scanned for it, no
two buckets have one key, and the bucket of a key stores its deque. -/
structure Prioq.Deques (pq : Prioq α) (a : Key → List α) : Prop extends pq.Inv where
  placed : ∀ pe ∈ pq.live, pe ∈ pq.hashtab (hashIndex (pq.elts pe).key.hash prioqTabsize)
  distinct : ∀ pe ∈ pq.live, ∀ pe' ∈ pq.live, (pq.elts pe).key = (pq.elts pe').key → pe = pe'
  rep : ∀ pe ∈ pq.live, (pq.elts pe).data.Rep (a (pq.elts pe).key)
  covered : ∀ k, a k ≠ [] → ∃ pe ∈ pq.live, (pq.elts pe).key = k

theorem deques_cqsPrioqInit : (cqsPrioqInit : Prioq α).Deques fun _ => [] where
  toInv := inv_cqsPrioqInit
  placed := fun _ h => absurd h (Multiset.notMem_zero _)
  distinct := fun _ h => absurd h (Multiset.notMem_zero _)
  rep := fun _ h => absurd h (Multiset.notMem_zero _)
  covered := fun _ h => absurd rfl h

variable {k : Key} {i : Nat}

section Prioq

variable {pq : Prioq α} {a : Key → List α} {bits : Word} {words : List Word}

/-- The rehash computes the hash value of the stored key. -/
theorem Prio.Ok.hash_eq {e : Prioqelt α} (h : e.pri.Ok) : e.hash = e.key.hash := by
  rw [Prioqelt.hash, ← h.length_eq, take_length]
  rfl

variable {pe : Nat}

/-- The scan finds the bucket of a live key. -/
theorem Prioq.Deques.lookup_eq (h : pq.Deques a) (hpe : pe ∈ pq.live)
    (hk : (pq.elts pe).key = keyFrom bits words) : pq.lookup bits words = some pe := by
  cases hl : pq.lookup bits words with
  | some pe' =>
    obtain ⟨hlive, hb, hw⟩ := h.lookup_some hl
    have hk' : (pq.elts pe').key = keyFrom bits words := Prod.ext hb hw
    rw [h.distinct pe hpe pe' hlive (hk.trans hk'.symm)]
  | none =>
    -- the bucket is in the chain that was scanned
    have hmem := h.placed pe hpe
    rw [hk] at hmem
    have hb : (pq.elts pe).pri.bits.setWidth 32 = bits := congrArg Prod.fst hk
    have hw : (pq.elts pe).pri.data = words.take (prioInts bits) := congrArg Prod.snd hk
    refine absurd ⟨hb.symm, ?_⟩ (Prioq.lookup_none hl pe hmem)
    rw [hw, take_take, Nat.min_self]

theorem Prioq.Deques.lookup_some_key (h : pq.Deques a) (hl : pq.lookup bits words = some pe) :
    pe ∈ pq.live ∧ (pq.elts pe).key = keyFrom bits words := by
  obtain ⟨hlive, hb, hw⟩ := h.lookup_some hl
  exact ⟨hlive, Prod.ext hb hw⟩

theorem setDeq_key (d : Deq α) (x : Nat) : ((pq.setDeq pe d).elts x).key = (pq.elts x).key := by
  simp only [Prioqelt.key, setDeq_pri]

/-- Updating the deque of one bucket updates the deque of its key. -/
theorem Prioq.Deques.setDeq (h : pq.Deques a) (hpe : pe ∈ pq.live) {d : Deq α}
    {l : List α} (hd : d.Rep l) (hl : l ≠ []) :
    (pq.setDeq pe d).Deques (update a (pq.elts pe).key l) where
  toInv := h.toFrame.setDeq_inv hd hl fun x hx _ => h.stores x hx
  placed := by
    intro x hx
    rw [setDeq_key]
    exact h.placed x hx
  distinct := by
    intro x hx y hy hxy
    rw [setDeq_key, setDeq_key] at hxy
    exact h.distinct x hx y hy hxy
  rep := by
    intro x hx
    rw [setDeq_key]
    by_cases hxe : x = pe
    · subst hxe
      rw [setDeq_self, update_self]
      exact hd
    · rw [setDeq_of_ne d hxe, update_of_ne]
      · exact h.rep x hx
      · intro hk
        exact hxe (h.distinct x hx pe hpe hk)
  covered := by
    intro k hk
    by_cases hke : k = (pq.elts pe).key
    · exact ⟨pe, hpe, by rw [setDeq_key, hke]⟩
    · rw [update_of_ne hke] at hk
      obtain ⟨x, hx, hxk⟩ := h.covered k hk
      exact ⟨x, hx, by rw [setDeq_key, hxk]⟩

theorem newBucket_key_fresh (hbits : bits.toNat < 2 ^ 16) :
    ((pq.newBucket bits words).elts pq.fresh).key = keyFrom bits words := by
  rw [newBucket_elts, update_self]
  exact Prod.ext (setWidth_bits hbits) rfl

theorem Prioq.Deques.newBucket_key (h : pq.Deques a) (hpe : pe ∈ pq.live) :
    ((pq.newBucket bits words).elts pe).key = (pq.elts pe).key := by
  rw [h.newBucket_elts_live hpe]

section Put

variable (h : pq.Deques a) (hbits : bits.toNat < 2 ^ 16) (hlen : prioInts bits ≤ words.length)
  (hagree : pq.RehashAgrees (keyFrom bits words))

include h hbits hlen hagree

section

variable (hnew : ∀ pe ∈ pq.live, (pq.elts pe).key ≠ keyFrom bits words)

include hnew

/-- A new bucket and the live ones are in the chains scanned for them, also after a rehash that
agrees with the scan. -/
theorem Prioq.Deques.newBucket_placed
    (hpe : pe ∈ (pq.newBucket bits words).live) : pe ∈ (pq.newBucket bits words).hashtab
      (hashIndex ((pq.newBucket bits words).elts pe).key.hash prioqTabsize) := by
  have hframe := h.toFrame.newBucket hbits hlen
  have helts : (pq.linkBucket bits words).elts = (pq.newBucket bits words).elts := by
    rw [newBucket_elts]
    rfl
  -- before the rehash
  have hlink : pe ∈ (pq.linkBucket bits words).hashtab
      (hashIndex ((pq.newBucket bits words).elts pe).key.hash prioqTabsize) := by
    rw [h.live_newBucket] at hpe
    rcases Multiset.mem_cons.1 hpe with rfl | hold
    · rw [newBucket_key_fresh hbits]
      exact mem_chainCons.2 (.inr ⟨rfl, rfl⟩)
    · rw [h.newBucket_key hold]
      exact mem_chainCons.2 (.inl (h.placed pe hold))
  rw [newBucket_hashtab, Prioq.rehashIfFull]
  by_cases hfull : (pq.linkBucket bits words).hashEntrySize >
      2 * (pq.linkBucket bits words).hashKeySize
  · rw [if_pos hfull]
    refine mem_cqsPrioqRehash.2 ⟨⟨_, ?_, hlink⟩, ?_⟩
    · exact lt_of_lt_of_le (hashIndex_lt (by decide)) h.tabsize_le
    · rw [helts, (hframe.prio pe hpe).hash_eq]
      obtain ⟨hfresh, hlive⟩ := hagree hnew hfull
      rw [h.live_newBucket] at hpe
      rcases Multiset.mem_cons.1 hpe with rfl | hold
      · rw [newBucket_key_fresh hbits]
        exact hfresh
      · rw [h.newBucket_key hold]
        exact hlive pe hold
  · rw [if_neg hfull]
    exact hlink

/-- A message of a new key gets a bucket of its own. -/
theorem Prioq.Deques.put_new (lifo : Bool)
    (data : α) : ((pq.newBucket bits words).setDeq pq.fresh (deqPut lifo cqsDeqInit data)).Deques
      (update a (keyFrom bits words) (putList lifo [] data)) := by
  have hrep : (deqPut lifo cqsDeqInit data).Rep (putList lifo [] data) :=
    rep_deqPut rep_cqsDeqInit lifo data
  have hlive : ∀ x, x ∈ (pq.newBucket bits words).live ↔ x = pq.fresh ∨ x ∈ pq.live := by
    intro x
    rw [h.live_newBucket, Multiset.mem_cons]
  have hfreshKey : ((pq.newBucket bits words).elts pq.fresh).key =
      keyFrom bits words := newBucket_key_fresh hbits
  have hne : ∀ x ∈ pq.live, x ≠ pq.fresh := by
    rintro x hx rfl
    exact h.fresh_notMem hx
  refine ⟨?_, ?_, ?_, ?_, ?_⟩
  · refine (h.toFrame.newBucket hbits hlen).setDeq_inv hrep (deqPut_ne_nil lifo data []) ?_
    intro x hx hxf
    have hold := ((hlive x).1 hx).resolve_left hxf
    rw [h.newBucket_elts_live hold]
    exact h.stores x hold
  · intro x hx
    rw [setDeq_key]
    exact h.newBucket_placed hbits hlen hagree hnew hx
  · intro x hx y hy hxy
    rw [setDeq_key, setDeq_key] at hxy
    rcases (hlive x).1 hx with rfl | hx
    · rcases (hlive y).1 hy with rfl | hy
      · rfl
      · rw [hfreshKey, h.newBucket_key hy] at hxy
        exact absurd hxy.symm (hnew y hy)
    · rcases (hlive y).1 hy with rfl | hy
      · rw [hfreshKey, h.newBucket_key hx] at hxy
        exact absurd hxy (hnew x hx)
      · rw [h.newBucket_key hx, h.newBucket_key hy] at hxy
        exact h.distinct x hx y hy hxy
  · intro x hx
    rw [setDeq_key]
    rcases (hlive x).1 hx with rfl | hx
    · rw [hfreshKey, setDeq_self, update_self]
      exact hrep
    · rw [setDeq_of_ne _ (hne x hx), h.newBucket_key hx, update_of_ne (hnew x hx),
        h.newBucket_elts_live hx]
      exact h.rep x hx
  · intro k hk
    by_cases hke : k = keyFrom bits words
    · exact ⟨pq.fresh, (hlive _).2 (.inl rfl), by rw [setDeq_key, hfreshKey, hke]⟩
    · rw [update_of_ne hke] at hk
      obtain ⟨x, hx, hxk⟩ := h.covered k hk
      exact ⟨x, (hlive x).2 (.inr hx), by rw [setDeq_key, h.newBucket_key hx, hxk]⟩

end

/-- An insertion puts the message into the deque of its key. -/
theorem Prioq.Deques.put (lifo : Bool) (data : α) :
    (pq.put bits words lifo data).Deques (update a (keyFrom bits words)
      (putList lifo (a (keyFrom bits words)) data)) := by
  cases hl : pq.lookup bits words with
  | some pe =>
    obtain ⟨hlive, hk⟩ := h.lookup_some_key hl
    rw [Prioq.put, cqsPrioqGetDeq, hl, ← hk]
    exact h.setDeq hlive (rep_deqPut (h.rep pe hlive) lifo data) (deqPut_ne_nil lifo data _)
  | none =>
    have hnew : ∀ pe ∈ pq.live, (pq.elts pe).key ≠ keyFrom bits words := by
      intro pe hpe hk
      rw [h.lookup_eq hpe hk] at hl
      cases hl
    have hempty : a (keyFrom bits words) = [] := by
      by_contra hne
      obtain ⟨pe, hpe, hk⟩ := h.covered _ hne
      exact hnew pe hpe hk
    rw [put_of_lookup_none hl, hempty]
    exact h.put_new hbits hlen hagree hnew lifo data

end Put

variable (h : pq.Deques a)

include h

/-- A removal takes the first message of the deque of one key. -/
theorem Prioq.Deques.dequeue (hne : 1 < pq.heapnext) :
    ∃ k m l, a k = m :: l ∧ (cqsPrioqDequeue pq).1 = some m ∧
      (cqsPrioqDequeue pq).2.Deques (update a k l) := by
  obtain ⟨m, l, d, hrep, hd, he⟩ := h.cqsPrioqDequeue_eq hne
  have hroot := heap_one_mem_live hne
  have hinv := h.toInv.cqsPrioqDequeue
  refine ⟨(pq.elts (pq.heap 1)).key, m, l, (h.rep _ hroot).unique hrep, by rw [he], ?_⟩
  rw [he] at hinv ⊢
  by_cases hl : l = []
  · simp only [if_pos hl] at hinv ⊢
    have hlive : ∀ x, x ∈ (pq.setDeq (pq.heap 1) d).removeRoot.live ↔ x ∈ pq.live ∧ x ≠ pq.heap 1 :=
      fun _ => (h.toFrame.setDeq _ d).mem_removeRoot hne
    have hkey : ∀ x, ((pq.setDeq (pq.heap 1) d).removeRoot.elts x).key = (pq.elts x).key :=
      setDeq_key _
    refine ⟨hinv, ?_, ?_, ?_, ?_⟩
    · intro x hx
      rw [hkey]
      exact mem_filter.2 ⟨h.placed x ((hlive x).1 hx).1, decide_eq_true ((hlive x).1 hx).2⟩
    · intro x hx y hy hxy
      rw [hkey, hkey] at hxy
      exact h.distinct x ((hlive x).1 hx).1 y ((hlive y).1 hy).1 hxy
    · intro x hx
      obtain ⟨hx, hxr⟩ := (hlive x).1 hx
      rw [hkey, update_of_ne]
      · show ((pq.setDeq (pq.heap 1) d).elts x).data.Rep _
        rw [setDeq_of_ne d hxr]
        exact h.rep x hx
      · intro hk
        exact hxr (h.distinct x hx _ hroot hk)
    · intro k hk
      by_cases hke : k = (pq.elts (pq.heap 1)).key
      · rw [hke, update_self] at hk
        exact absurd hl hk
      · rw [update_of_ne hke] at hk
        obtain ⟨x, hx, hxk⟩ := h.covered k hk
        refine ⟨x, (hlive x).2 ⟨hx, ?_⟩, by rw [hkey, hxk]⟩
        rintro rfl
        exact hke hxk.symm
  · simp only [if_neg hl] at hinv ⊢
    exact h.setDeq hroot hd hl

/-- A key with an empty deque has no bucket. -/
theorem Prioq.Deques.key_ne (hk : a k = []) : ∀ pe ∈ pq.live, (pq.elts pe).key ≠ k := by
  rintro pe hpe rfl
  obtain ⟨l, hl, hrep⟩ := h.stores pe hpe
  have hnil := h.rep pe hpe
  rw [hk] at hnil
  exact hl (hrep.unique hnil)

theorem Prioq.Deques.lookup_eq_none (hk : a (keyFrom bits words) = []) :
    pq.lookup bits words = none := by
  cases hl : pq.lookup bits words with
  | none => rfl
  | some pe =>
    obtain ⟨hlive, hkey⟩ := h.lookup_some_key hl
    exact absurd hkey (h.key_ne hk pe hlive)

/-- The keys after a message of a new key was inserted. -/
theorem Prioq.Deques.put_new_keys (hbits : bits.toNat < 2 ^ 16)
    (hk : a (keyFrom bits words) = []) (lifo : Bool) (data : α) :
    ∀ pe ∈ (pq.put bits words lifo data).live,
      ((pq.put bits words lifo data).elts pe).key = keyFrom bits words ∨
        a ((pq.put bits words lifo data).elts pe).key ≠ [] := by
  rw [put_of_lookup_none (h.lookup_eq_none hk)]
  intro pe hpe
  have hpe' : pe ∈ (pq.newBucket bits words).live := hpe
  rw [h.live_newBucket, Multiset.mem_cons] at hpe'
  rw [setDeq_key]
  rcases hpe' with rfl | hold
  · exact .inl (newBucket_key_fresh hbits)
  · rw [h.newBucket_key hold]
    exact .inr fun hnil => h.key_ne hnil pe hold rfl

/-- A queue without buckets has empty deques. -/
theorem Prioq.Deques.eq_nil (hnext : ¬ 1 < pq.heapnext) (k : Key) : a k = [] := by
  by_contra hk
  obtain ⟨pe, hpe, -⟩ := h.covered k hk
  obtain ⟨i, hi, hlt, -⟩ := BinaryHeap.mem_slots.1 hpe
  omega

end Prioq

/-! ## The whole queue -/

/-- The deque a message belongs to: that of priority zero, or that of a key. -/
inductive DequeKey where
  | zero
  | prio (key : Key)
  deriving DecidableEq

/-- The deque a target stands for. -/
def Target.dequeKey : Target → DequeKey
  | .zero => .zero
  | .prio _ priobits words => .prio (keyFrom priobits words)

/-- The abstract queue: one deque per key. -/
def DequeStep (little : Bool) (a : DequeKey → List α) (e : QEvent α) (a' : DequeKey → List α) :
    Prop :=
  match e with
  | .dequeue none => a' = a ∧ ∀ k, a k = []
  | .dequeue (some m) => ∃ k l, a k = m :: l ∧ a' = update a k l
  | e => ∃ t lifo data, e.insertion little = some (t, lifo, data) ∧
    a' = update a t.dequeKey (putList lifo (a t.dequeKey) data)

/-- The part of the queue a key belongs to, by the sign bit of its first word. -/
def Key.positive (k : Key) : Bool :=
  match k.2 with
  | [] => false
  | w :: _ => w.msb

/-- The target is in the part of its key. -/
def Target.Sided : Target → Prop
  | .zero => True
  | .prio positive priobits words => (keyFrom priobits words).positive = positive

/-- The deques of the keys of one part. -/
def part (positive : Bool) (a : DequeKey → List α) (k : Key) : List α :=
  if k.positive = positive then a (.prio k) else []

/-- The queue holds the deques `a`. -/
structure Queue.Deques (q : Queue α) (a : DequeKey → List α) : Prop extends q.Inv where
  negDeques : q.negprioq.Deques (part false a)
  posDeques : q.posprioq.Deques (part true a)
  zeroDeque : q.zeroprio.Rep (a .zero)

/-- What a call must meet: its key fits in 16 bits, an `LLIFO` priority is not empty, and a rehash
that it triggers agrees with the scan. -/
def QEvent.Sound (little : Bool) (q : Queue α) (e : QEvent α) : Prop :=
  e.Fits ∧ (∀ data prioptr, e ≠ .enqueueGeneral data .llifo 0 prioptr) ∧
    ∀ positive priobits words lifo data,
      e.insertion little = some (.prio positive priobits words, lifo, data) →
      (if positive then q.posprioq else q.negprioq).RehashAgrees (keyFrom priobits words)

section Queue

variable {q : Queue α} {a : DequeKey → List α}

variable {positive : Bool}

theorem part_update_same (l : List α) (h : k.positive = positive) :
    part positive (update a (.prio k) l) = update (part positive a) k l := by
  funext k'
  by_cases hk : k' = k
  · subst hk
    rw [update_self, part, if_pos h, update_self]
  · rw [update_of_ne hk, part, part, update_of_ne]
    intro he
    cases he
    exact hk rfl

theorem part_update_other (l : List α) (h : k.positive ≠ positive) :
    part positive (update a (.prio k) l) = part positive a := by
  funext k'
  by_cases hk : k'.positive = positive
  · rw [part, part, if_pos hk, if_pos hk, update_of_ne]
    intro he
    cases he
    exact h hk
  · rw [part, part, if_neg hk, if_neg hk]

theorem deques_cqsCreate : (cqsCreate : Queue α).Deques fun _ => [] where
  toInv := inv_cqsCreate
  negDeques := by
    rw [show part false (fun _ => ([] : List α)) = fun _ => [] from funext fun _ => ite_self _]
    exact deques_cqsPrioqInit
  posDeques := by
    rw [show part true (fun _ => ([] : List α)) = fun _ => [] from funext fun _ => ite_self _]
    exact deques_cqsPrioqInit
  zeroDeque := rep_cqsDeqInit

variable {bits : Word}

/-- A key of at least one bit has a first word, whose sign bit decides. -/
theorem keyFrom_positive (h0 : bits ≠ 0) (hb : bits.toNat < 2 ^ 16)
    (w : Word) (ws : List Word) : (keyFrom bits (w :: ws)).positive = w.msb := by
  have hpos : 0 < bits.toNat := by
    refine Nat.pos_of_ne_zero fun h => h0 ?_
    exact BitVec.eq_of_toNat_eq h
  obtain ⟨n, hn⟩ : ∃ n, prioInts bits = n + 1 := by
    rw [prioInts_eq hb]
    exact ⟨(bits.toNat - 1) / 32, by omega⟩
  rw [keyFrom, hn, take_succ_cons]
  rfl

variable {t : Target} {little : Bool} {e : QEvent α}

/-- A message that is inserted is in the part of its key. -/
theorem QEvent.Selects.sided (h : e.Selects little t) (hf : e.Fits)
    (h0 : ∀ data prioptr, e ≠ .enqueueGeneral data .llifo 0 prioptr) : t.Sided := by
  cases h with
  | zero => trivial
  | int p => exact keyFrom_positive (by decide) (by decide) _ _
  | noBits prioptr => rfl
  | bits hs hne => rcases hs with rfl | rfl <;> exact keyFrom_positive hne hf _ _
  | @long _ _ bits prioptr x hs =>
    -- the words of a 64-bit priority start with the word that has its sign
    have hne : bits ≠ 0 ∧ bits.toNat < 2 ^ 16 := by
      rcases hs with ⟨rfl, rfl⟩ | rfl
      · exact ⟨by decide, hf⟩
      · refine ⟨?_, hf⟩
        rintro rfl
        exact h0 _ prioptr rfl
    rw [longWords_lprio, ← msb_high_word]
    exact keyFrom_positive hne.1 hne.2 _ _

/-- An insertion puts the message into the deque of its target. -/
theorem Queue.Deques.insertAt (h : q.Deques a) (hs : t.Supplied) (hf : t.Fits) (hside : t.Sided)
    (hagree : ∀ positive bits words, t = .prio positive bits words →
      (if positive then q.posprioq else q.negprioq).RehashAgrees (keyFrom bits words))
    (lifo : Bool) (data : α) : (q.insertAt t lifo data).bump.Deques
      (update a t.dequeKey (putList lifo (a t.dequeKey) data)) := by
  have hinv := h.toInv.insertAt hs hf lifo data
  cases t with
  | zero =>
    refine ⟨hinv, ?_, ?_, ?_⟩
    · exact h.negDeques
    · exact h.posDeques
    · exact rep_deqPut h.zeroDeque lifo data
  | prio positive bits words =>
    have hside' : (keyFrom bits words).positive = positive := hside
    have ha : part positive a (keyFrom bits words) = a (.prio (keyFrom bits words)) := by
      rw [part, if_pos hside']
    cases positive with
    | true =>
      refine ⟨hinv, ?_, ?_, ?_⟩
      · rw [Target.dequeKey, part_update_other _ (by rw [hside']; simp)]
        exact h.negDeques
      · have hput := h.posDeques.put hf hs (hagree true bits words rfl) lifo data
        rw [ha] at hput
        rw [Target.dequeKey, part_update_same _ hside']
        exact hput
      · exact h.zeroDeque
    | false =>
      refine ⟨hinv, ?_, ?_, ?_⟩
      · have hput := h.negDeques.put hf hs (hagree false bits words rfl) lifo data
        rw [ha] at hput
        rw [Target.dequeKey, part_update_same _ hside']
        exact hput
      · rw [Target.dequeKey, part_update_other _ (by rw [hside']; simp)]
        exact h.posDeques
      · exact h.zeroDeque

theorem Queue.Inv.cqsDequeue (h : q.Inv) : (cqsDequeue q).2.Inv := by
  rcases h.stored_cqsDequeue with ⟨-, hq, -⟩ | ⟨pl, m, -, -, -, hinv⟩
  · rw [hq]
    exact h
  · exact hinv

/-- A key with a message in one part of the queue belongs to that part. -/
theorem positive_of_part {m : α} {l : List α} (h : part positive a k = m :: l) :
    k.positive = positive ∧ a (.prio k) = m :: l := by
  rw [part] at h
  split at h
  · next hk => exact ⟨hk, h⟩
  · cases h

variable (h : q.Deques a)

include h

/-- All deques are empty if the three parts of the queue are. -/
theorem Queue.Deques.eq_nil (hneg : ¬ 1 < q.negprioq.heapnext)
    (hzero : q.zeroprio.head = q.zeroprio.tail) (hpos : ¬ 1 < q.posprioq.heapnext)
    (k : DequeKey) : a k = [] := by
  cases k with
  | zero => exact h.zeroDeque.head_eq_tail_iff.1 hzero
  | prio k =>
    cases hk : k.positive with
    | true =>
      have hnil := h.posDeques.eq_nil hpos k
      rwa [part, if_pos hk] at hnil
    | false =>
      have hnil := h.negDeques.eq_nil hneg k
      rwa [part, if_pos hk] at hnil

/-- A dequeue takes the first message of one of the deques, and answers null only if all are
empty. -/
theorem Queue.Deques.dequeue :
    ((cqsDequeue q).1 = none ∧ (cqsDequeue q).2 = q ∧ ∀ k, a k = []) ∨
      ∃ k m l, a k = m :: l ∧ (cqsDequeue q).1 = some m ∧ (cqsDequeue q).2.Deques
      (update a k l) := by
  have hinv := h.toInv.cqsDequeue
  have hd := h.toInv.dequeues
  generalize (cqsDequeue q).1 = resp, (cqsDequeue q).2 = q' at hinv hd ⊢
  cases hd with
  | none hneg hzero hpos => exact .inl ⟨rfl, rfl, h.eq_nil (by omega) hzero (by omega)⟩
  | neg hneg =>
    obtain ⟨k, x, l, hk, hx, hd⟩ := h.negDeques.dequeue hneg
    obtain ⟨hside, hk⟩ := positive_of_part hk
    refine .inr ⟨.prio k, x, l, hk, hx, hinv, ?_, ?_, h.zeroDeque⟩
    · rw [part_update_same _ hside]
      exact hd
    · rw [part_update_other _ (by rw [hside]; simp)]
      exact h.posDeques
  | zero hneg hzero =>
    have hrep := h.zeroDeque
    cases hl : a .zero with
    | nil => exact absurd (hrep.head_eq_tail_iff.2 hl) hzero
    | cons x l =>
      rw [hl] at hrep
      obtain ⟨hx, hrest⟩ := cqsDeqDequeue_cons hrep
      exact .inr ⟨.zero, x, l, hl, hx, hinv, h.negDeques, h.posDeques, hrest⟩
  | pos hneg hzero hpos =>
    obtain ⟨k, x, l, hk, hx, hd⟩ := h.posDeques.dequeue hpos
    obtain ⟨hside, hk⟩ := positive_of_part hk
    refine .inr ⟨.prio k, x, l, hk, hx, hinv, ?_, ?_, h.zeroDeque⟩
    · rw [part_update_other _ (by rw [hside]; simp)]
      exact h.negDeques
    · rw [part_update_same _ hside]
      exact hd

/-- One call is one step on the deques. -/
theorem Queue.Deques.dequeStep {q' : Queue α}
    (hsound : e.Sound little q) (hstep : QStep little q e q') :
    ∃ a', DequeStep little a e a' ∧ q'.Deques a' := by
  obtain ⟨hfits, hllifo, hagree⟩ := hsound
  rcases qStep_cases hstep with ⟨rfl, rfl⟩ | ⟨t, lifo, data, hins, rfl⟩
  · rcases h.dequeue with ⟨hn, hq, hnil⟩ | ⟨k, m, l, hk, hm, hd⟩
    · rw [hn, hq]
      exact ⟨a, ⟨rfl, hnil⟩, h⟩
    · rw [hm]
      exact ⟨_, ⟨k, l, hk, rfl⟩, hd⟩
  · have hselects := insertion_selects hins
    have hd := h.insertAt hselects.supplied (hselects.fits hfits) (hselects.sided hfits hllifo)
      (fun positive bits words ht => hagree positive bits words lifo data (ht ▸ hins))
      lifo data
    refine ⟨_, ?_, hd⟩
    cases e with
    | dequeue resp => cases hins
    | enqueue | enqueueFifo | enqueueLifo | enqueueGeneral => exact ⟨t, lifo, data, hins, rfl⟩

end Queue

/-- A call that meets its condition. -/
def SoundStep (little : Bool) (q : Queue α) (e : QEvent α) (q' : Queue α) : Prop :=
  QStep little q e q' ∧ e.Sound little q

/-- In every run whose calls meet their condition, messages of one key are returned in the order of
its deque, no two buckets of a priority queue have one key, and the scan finds every bucket. -/
theorem samePriorityOrder {little : Bool} {es : List (QEvent α)} {q : Queue α}
    (hrun : Run (SoundStep little) cqsCreate es q) :
    ∃ a, Run (DequeStep little) (fun _ => []) es a ∧ q.Deques a ∧ ∀ pq ∈ [q.negprioq, q.posprioq],
        (∀ pe ∈ pq.live, ∀ pe' ∈ pq.live, (pq.elts pe).key = (pq.elts pe').key → pe = pe') ∧
        ∀ pe ∈ pq.live, ∀ priobits priodata, (pq.elts pe).key = keyFrom priobits priodata →
          pq.lookup priobits priodata = some pe := by
  obtain ⟨a, habs, ha⟩ := hrun.simulation (R := fun q a => q.Deques a) deques_cqsCreate
    fun _ _ _ _ h hstep => h.dequeStep hstep.2 hstep.1
  refine ⟨a, habs, ha, ?_⟩
  intro pq hpq
  simp only [mem_cons, not_mem_nil, or_false] at hpq
  rcases hpq with rfl | rfl
  · exact ⟨ha.negDeques.distinct, fun pe hpe _ _ hk => ha.negDeques.lookup_eq hpe hk⟩
  · exact ⟨ha.posDeques.distinct, fun pe hpe _ _ hk => ha.posDeques.lookup_eq hpe hk⟩

/-- A call whose key fits meets its condition while neither table is full. -/
theorem QEvent.sound_of_room {little : Bool} {e : QEvent α} {q : Queue α} (hfits : e.Fits)
    (hllifo : ∀ data prioptr, e ≠ .enqueueGeneral data .llifo 0 prioptr)
    (hroom : ∀ positive : Bool, (if positive then q.posprioq else q.negprioq).hashEntrySize <
      2 * (if positive then q.posprioq else q.negprioq).hashKeySize) : e.Sound little q := by
  refine ⟨hfits, hllifo, fun positive _ _ _ _ _ _ hfull => ?_⟩
  have hlt := hroom positive
  omega

/-- Three messages of one priority, the last of them put in front, and their dequeues. -/
def oneKey : List (QEvent Nat) :=
  [.enqueueGeneral 1 .ififo 0 [5], .enqueueGeneral 2 .ififo 0 [5], .enqueueGeneral 3 .ilifo 0 [5],
    .dequeue (some 3), .dequeue (some 1), .dequeue (some 2)]

theorem samePriorityOrder_one_key : ∃ (q : Queue Nat) (a : DequeKey → List Nat),
      Run (SoundStep true) cqsCreate oneKey q ∧ Run (DequeStep true) (fun _ => []) oneKey a ∧
        q.Deques a := by
  obtain ⟨q, hrun⟩ : ∃ q : Queue Nat, Run (SoundStep true) cqsCreate oneKey q := by
    refine ⟨_, .cons ⟨rfl, ?_⟩ <| .cons ⟨rfl, ?_⟩ <| .cons ⟨rfl, ?_⟩ <|
      .cons ⟨qStep_dequeue ?_, ?_⟩ <| .cons ⟨qStep_dequeue ?_, ?_⟩ <|
      .single ⟨qStep_dequeue ?_, ?_⟩⟩
    all_goals first
      | decide +kernel
      | exact QEvent.sound_of_room trivial (by simp) (by decide +kernel)
  obtain ⟨a, habs, ha, -⟩ := samePriorityOrder hrun
  exact ⟨q, a, hrun, habs, ha⟩

/-! ## A rehash that disagrees with the scan -/

variable {pq : Prioq α} {b : Word} {w : List Word}

/-- A rehash that moves the bucket of a key to another chain than the scanned one makes the key
unreachable. -/
theorem Prioq.Deques.lookup_lost {a : Key → List α} (h : pq.Deques a)
    {bits : Word} {words : List Word} (hbits : bits.toNat < 2 ^ 16)
    (hlen : prioInts bits ≤ words.length) (hfull : pq.hashEntrySize + 1 > 2 * pq.hashKeySize)
    (hindex : hashIndex (keyFrom b w).hash (pq.hashKeySize * 2) ≠
      hashIndex (keyFrom b w).hash prioqTabsize) : (pq.newBucket bits words).lookup b w = none := by
  cases hl : (pq.newBucket bits words).lookup b w with
  | none => rfl
  | some pe =>
    have hframe := h.toFrame.newBucket hbits hlen
    obtain ⟨hlive, hb, hw⟩ := hframe.lookup_some hl
    have hk : ((pq.newBucket bits words).elts pe).key = keyFrom b w := Prod.ext hb hw
    -- the bucket was found in the scanned chain, but the rehash put it elsewhere
    have hmem := mem_of_find?_eq_some hl
    rw [newBucket_hashtab, Prioq.rehashIfFull, if_pos (by exact hfull)] at hmem
    obtain ⟨-, hj⟩ := mem_cqsPrioqRehash.1 hmem
    have helts : (pq.linkBucket bits words).elts = (pq.newBucket bits words).elts := by
      rw [newBucket_elts]
      rfl
    rw [helts, (hframe.prio pe hlive).hash_eq, hk] at hj
    exact absurd hj hindex

/-- The word stored for the `i`-th priority. -/
def fillWord (i : Nat) : Word := biasInt (BitVec.ofNat 32 (1024 + i))

/-- The positive priorities after messages of `n` distinct priorities were enqueued. -/
def fill : Nat → Prioq Nat
  | 0 => cqsPrioqInit
  | n + 1 => (fill n).put cintBits [fillWord n] false n

theorem fillWord_toNat (h : i < 2 ^ 30) : (fillWord i).toNat = 2 ^ 31 + 1024 + i := by
  have hbias : (1#32 <<< 31).toNat = 2 ^ 31 := by decide
  rw [fillWord, biasInt, BitVec.toNat_add, BitVec.toNat_ofNat, hbias]
  omega

theorem keyFrom_cintBits (w : Word) : keyFrom cintBits [w] = (cintBits, [w]) := rfl

theorem fillKey_inj {j : Nat} (hi : i < 2 ^ 30) (hj : j < 2 ^ 30)
    (h : keyFrom cintBits [fillWord i] = keyFrom cintBits [fillWord j]) : i = j := by
  rw [keyFrom_cintBits, keyFrom_cintBits, Prod.mk.injEq, List.cons.injEq] at h
  have hi' := fillWord_toNat hi
  rw [h.2.1, fillWord_toNat hj] at hi'
  omega

variable {n : Nat}

/-- Only the keys of the first `n` messages have messages. -/
def Filled (n : Nat) (a : Key → List Nat) : Prop :=
  ∀ k, a k ≠ [] → ∃ i < n, k = keyFrom cintBits [fillWord i]

theorem Filled.next_eq_nil {a : Key → List Nat} (h : Filled n a) (hn : n < 2 ^ 30) :
    a (keyFrom cintBits [fillWord n]) = [] := by
  by_contra hne
  obtain ⟨i, hi, hk⟩ := h _ hne
  have := fillKey_inj hn (by omega) hk
  omega

/-- Up to `2 * PRIOQ_TABSIZE` priorities there is no rehash. -/
theorem fill_deques (hn : n ≤ 2034) :
    ∃ a, (fill n).Deques a ∧ Filled n a ∧ (fill n).hashEntrySize = n ∧
    (fill n).hashKeySize = 1017 := by
  induction n with
  | zero => exact ⟨_, deques_cqsPrioqInit, fun _ h => absurd rfl h, rfl, rfl⟩
  | succ n ih =>
    obtain ⟨a, h, hfilled, hentry, hkey⟩ := ih (by omega)
    have hnotfull : ¬ (fill n).hashEntrySize + 1 > 2 * (fill n).hashKeySize := by
      omega
    have hlen : prioInts cintBits ≤ [fillWord n].length := show prioInts cintBits ≤ 1 by decide
    have hlookup := h.lookup_eq_none (hfilled.next_eq_nil (by omega))
    refine ⟨_, h.put (by decide) hlen (fun _ hfull => absurd hfull hnotfull) false n,
      fun k hk => ?_, ?_, ?_⟩
    · by_cases he : k = keyFrom cintBits [fillWord n]
      · exact ⟨n, n.lt_add_one, he⟩
      · rw [update_of_ne he] at hk
        obtain ⟨i, hi, hki⟩ := hfilled k hk
        exact ⟨i, hi.trans n.lt_add_one, hki⟩
    · rw [fill, put_of_lookup_none hlookup]
      rw [Prioq.newBucket, heapInsert_eq, rehashIfFull_eq]
      exact congrArg (· + 1) hentry
    · rw [fill, put_of_lookup_none hlookup]
      rw [Prioq.newBucket, heapInsert_eq, Prioq.rehashIfFull, if_neg (by exact hnotfull)]
      exact hkey

/-- The first of these keys is lost by the rehash for the last of `2 * PRIOQ_TABSIZE + 1` keys. -/
theorem fill_lookup_lost : (fill 2035).lookup cintBits [fillWord 0] = none := by
  obtain ⟨a, h, hfilled, hentry, hkey⟩ := fill_deques (n := 2034) le_rfl
  have hlookup := h.lookup_eq_none (hfilled.next_eq_nil (by decide))
  rw [fill, put_of_lookup_none hlookup, setDeq_lookup]
  refine h.lookup_lost (by decide) (by decide) ?_ ?_
  · rw [hentry, hkey]
    decide
  · rw [hkey]
    decide

/-- The queue after the rehash keeps its invariant, and its keys are those enqueued. -/
theorem fill_inv : (fill 2035).Inv ∧ ∀ pe ∈ (fill 2035).live,
    ∃ i < 2035, ((fill 2035).elts pe).key = keyFrom cintBits [fillWord i] := by
  obtain ⟨a, h, hfilled, -⟩ := fill_deques (n := 2034) le_rfl
  rw [fill]
  refine ⟨h.toInv.put (by decide) (by decide) false 2034, ?_⟩
  intro pe hpe
  rcases h.put_new_keys (by decide) (hfilled.next_eq_nil (by decide)) false 2034 pe hpe
    with hk | hne
  · exact ⟨2034, by decide, hk⟩
  · obtain ⟨i, hi, hk⟩ := hfilled _ hne
    exact ⟨i, by omega, hk⟩

/-- A second bucket for a least key goes to the root, in front of the first one. -/
theorem dequeue_second (h : pq.Inv)
    (hbits : b.toNat < 2 ^ 16) (hlen : prioInts b ≤ w.length) (hlookup : pq.lookup b w = none)
    (hmin : ∀ pe ∈ pq.live,
      (keyFrom b w).2.map BitVec.toNat ≤ (pq.elts pe).key.2.map BitVec.toNat) (data : α) :
    1 < (pq.put b w false data).heapnext ∧ (cqsPrioqDequeue (pq.put b w false data)).1 =
      some data := by
  rw [put_of_lookup_none hlookup]
  have hframe := h.toFrame.newBucket hbits hlen
  have hnext : ((pq.newBucket b w).setDeq pq.fresh (deqPut false cqsDeqInit data)).heapnext =
      pq.heapnext + 1 := newBucket_heapnext
  have hpos := h.heapnext_pos
  have hroot : ((pq.newBucket b w).setDeq pq.fresh (deqPut false cqsDeqInit data)).heap 1 =
      pq.fresh := by
    show (pq.newBucket b w).heap 1 = pq.fresh
    have hmem : ∀ x ∈ (pq.newBucket b w).live, (pq.newBucket b w).keyOf x =
        ((pq.newBucket b w).elts x).key.2.map BitVec.toNat := by
      intro x hx
      exact (hframe.prio x hx).key_eq
    rw [newBucket_heap]
    refine BinaryHeap.siftUp_root (pq.newBucket b w).gt_iff _ hpos fun i hi hlt => ?_
    have hlive : pq.heap i ∈ pq.live := BinaryHeap.mem_slots.2 ⟨i, hi, hlt, rfl⟩
    rw [hmem, hmem, newBucket_key_fresh hbits, h.newBucket_elts_live hlive]
    · exact hmin _ hlive
    · rw [h.live_newBucket]
      exact Multiset.mem_cons_of_mem hlive
    · rw [h.live_newBucket]
      exact Multiset.mem_cons_self _ _
  refine ⟨by omega, cqsPrioqDequeue_fst (l := []) (by omega) hroot ?_⟩
  rw [setDeq_self]
  exact rep_deqPut rep_cqsDeqInit false data

theorem fill_dequeue_second : 1 < ((fill 2035).put cintBits [fillWord 0] false 2035).heapnext ∧
      (cqsPrioqDequeue ((fill 2035).put cintBits [fillWord 0] false 2035)).1 = some 2035 := by
  obtain ⟨hinv, hkeys⟩ := fill_inv
  refine dequeue_second hinv (by decide) (by decide) fill_lookup_lost ?_ 2035
  intro pe hpe
  obtain ⟨i, hi, hk⟩ := hkeys pe hpe
  rw [hk, keyFrom_cintBits, keyFrom_cintBits]
  simp only [map_cons, map_nil, fillWord_toNat (show 0 < 2 ^ 30 by decide),
    fillWord_toNat (show i < 2 ^ 30 by omega)]
  refine not_lt.1 fun hlt => ?_
  rcases cons_lt_cons_iff.1 hlt with h | ⟨-, h⟩
  · omega
  · exact absurd h (not_lt_nil _)

/-- The calls that fill the queue. -/
def fillCalls (n : Nat) : List (QEvent Nat) :=
  (List.range n).map fun i => .enqueueGeneral i .ififo 0 [BitVec.ofNat 32 (1024 + i)]

/-- The queue after these calls. -/
def fillQueue (n : Nat) : Queue Nat := ⟨n, n, cqsDeqInit, cqsPrioqInit, fill n⟩

theorem fillCalls_succ : fillCalls (n + 1) =
    fillCalls n ++ [.enqueueGeneral n .ififo 0 [BitVec.ofNat 32 (1024 + n)]] := by
  rw [fillCalls, range_succ, map_append]
  rfl

theorem fill_target (hi : i < 2 ^ 30) : target true .ififo 0 [BitVec.ofNat 32 (1024 + i)] =
      some (.prio true cintBits [fillWord i]) := by
  have hmsb : (fillWord i).msb = true := by
    rw [BitVec.msb_eq_decide, decide_eq_true_eq, fillWord_toNat hi]
    omega
  show some (Target.prio (fillWord i).msb cintBits [fillWord i]) = _
  rw [hmsb]

theorem fill_qStep (hi : i < 2 ^ 30) (m : Nat) (q : Queue Nat) :
    QStep true q (.enqueueGeneral m .ififo 0 [BitVec.ofNat 32 (1024 + i)])
      (q.insertAt (.prio true cintBits [fillWord i]) false m).bump :=
  qStep_enqueueGeneral (fill_target hi) rfl m

theorem run_fillCalls (hn : n ≤ 2 ^ 30) :
    Run (QStep true) cqsCreate (fillCalls n) (fillQueue n) := by
  induction n with
  | zero => exact Run.nil
  | succ n ih =>
    rw [fillCalls_succ]
    have hstep := fill_qStep (show n < 2 ^ 30 by omega) n (fillQueue n)
    have hnext : ((fillQueue n).insertAt (.prio true cintBits [fillWord n]) false n).bump =
        fillQueue (n + 1) := by
      have hmax : (if n + 1 > n then n + 1 else n) = n + 1 := if_pos (Nat.lt_succ_self n)
      exact congrArg
        (fun maxlen => (⟨n + 1, maxlen, cqsDeqInit, cqsPrioqInit, fill (n + 1)⟩ : Queue Nat)) hmax
    rw [hnext] at hstep
    exact (ih (by omega)).snoc hstep

/-- The messages of the abstract deques after these calls. The first one is not taken. -/
theorem dequeStep_fillCalls (hn : n ≤ 2 ^ 30) {a : DequeKey → List Nat}
    (h : Run (DequeStep true) (fun _ => []) (fillCalls n) a) :
    (∀ k, ∀ m ∈ a k, m < n) ∧ (0 < n → a (.prio (keyFrom cintBits [fillWord 0])) ≠ []) := by
  induction n generalizing a with
  | zero =>
    rw [Run.nil_iff.1 h]
    exact ⟨fun _ => forall_mem_nil _, fun h => absurd h (lt_irrefl 0)⟩
  | succ n ih =>
    rw [fillCalls_succ] at h
    obtain ⟨b, hb, t, lifo, data, hins, rfl⟩ := (Run.concat_iff _).1 h
    obtain ⟨hlt, hfirst⟩ := ih (by omega) hb
    rw [QEvent.insertion, fill_target (by omega)] at hins
    cases hins
    refine ⟨fun k => ?_, fun _ => ?_⟩
    · rw [update_apply]
      split
      · exact forall_mem_concat (fun m hm => (hlt _ m hm).trans n.lt_add_one) n.lt_add_one
      · exact fun m hm => (hlt k m hm).trans n.lt_add_one
    · rw [update_apply]
      split
      · exact append_ne_nil_of_right_ne_nil _ (cons_ne_nil _ _)
      · next hk => exact hfirst (Nat.pos_of_ne_zero fun h0 => hk (by rw [h0]; rfl))

/-- A dequeue from a queue that has positive priorities only. -/
theorem qStep_dequeue_pos {m : α} (hnext : 1 < pq.heapnext)
    (hfst : (cqsPrioqDequeue pq).1 = some m) (n maxlen : Nat) :
    ∃ q', QStep true (⟨n + 1, maxlen, cqsDeqInit, cqsPrioqInit, pq⟩ : Queue α)
      (.dequeue (some m)) q' := by
  refine ⟨_, Prod.ext ?_ rfl⟩
  rw [cqsDequeue, if_neg (Nat.succ_ne_zero n), if_neg (by exact lt_irrefl 1),
    if_neg (by exact not_not.2 rfl), if_pos hnext]
  exact hfst

/-- The calls that fill the queue, a second message of the first priority, and a dequeue that
returns it. -/
def overtakeCalls (n : Nat) : List (QEvent Nat) :=
  fillCalls n ++ [.enqueueGeneral n .ififo 0 [BitVec.ofNat 32 (1024 + 0)]] ++ [.dequeue (some n)]

theorem run_overtakeCalls (hn : n ≤ 2 ^ 30)
    (hnext : 1 < ((fill n).put cintBits [fillWord 0] false n).heapnext)
    (hfst : (cqsPrioqDequeue ((fill n).put cintBits [fillWord 0] false n)).1 = some n) :
    ∃ q, Run (QStep true) cqsCreate (overtakeCalls n) q := by
  have hlast := fill_qStep (show 0 < 2 ^ 30 by decide) n (fillQueue n)
  obtain ⟨q, hdeq⟩ := qStep_dequeue_pos hnext hfst n (if n + 1 > n then n + 1 else n)
  exact ⟨q, ((run_fillCalls hn).snoc hlast).snoc hdeq⟩

/-- In the abstract queue the first message of the priority comes first. -/
theorem not_dequeStep_overtakeCalls (hn : n + 1 ≤ 2 ^ 30) :
    ¬ ∃ a, Run (DequeStep true) (fun _ => []) (overtakeCalls (n + 1)) a := by
  rintro ⟨a, ha⟩
  obtain ⟨b, hb, k, l, hk, -⟩ := (Run.concat_iff _).1 ha
  obtain ⟨c, hc, t, lifo, data, hins, rfl⟩ := (Run.concat_iff _).1 hb
  rw [QEvent.insertion, fill_target (by decide)] at hins
  cases hins
  obtain ⟨hlt, hfirst⟩ := dequeStep_fillCalls hn hc
  -- the message that is taken is new, and behind the first one of its deque
  have hnew : ∀ k, n + 1 ∉ c k := fun k hm => lt_irrefl _ (hlt k _ hm)
  obtain ⟨x, l', hx⟩ := exists_cons_of_ne_nil (hfirst n.succ_pos)
  rw [update_apply] at hk
  split at hk
  · rw [Target.dequeKey, hx] at hk
    cases hk
    exact hnew _ (hx ▸ mem_cons_self)
  · exact hnew k (hk ▸ mem_cons_self)

/-- With more than `2 * PRIOQ_TABSIZE` live priorities a later message of the first of them gets a
second bucket and is returned in front of the earlier one. -/
theorem rehash_overtakes : ∃ (es : List (QEvent Nat)) (q : Queue Nat),
    Run (QStep true) cqsCreate es q ∧
      ¬ ∃ a, Run (DequeStep true) (fun _ => []) es a := by
  obtain ⟨hnext, hfst⟩ := fill_dequeue_second
  obtain ⟨q, hrun⟩ := run_overtakeCalls (by decide) hnext hfst
  exact ⟨_, q, hrun, not_dequeStep_overtakeCalls (by decide)⟩

end CharmRuntime.Queueing
