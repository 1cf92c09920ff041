import CharmRuntime.Lib.BinaryHeap
import CharmRuntime.Queueing.Deque
import CharmRuntime.Queueing.Priority

/-!
# The priority queue of buckets

`prioq_struct` is a one-based binary heap of buckets together with a hash table that finds the
bucket of a priority. A bucket (`prioqelt_struct`) has an address; `elts` is the memory of the
buckets and `fresh` the next address `CmiAlloc` returns. A hash chain, linked by `ht_next` and
`ht_handle` in the source, is the list of its addresses from the first to the last: inserting before
the first and unlinking through `ht_handle` are `cons` and the removal from that list.

The buckets in use are the entries of the heap (`Prioq.live`). `Prioq.Inv` collects what every
operation keeps: the heap is ordered by `CqsPrioGT`, its entries are distinct allocated buckets,
every chained bucket is in the heap, and every bucket stores a message. The effect of the two
operations on the stored messages is `stored_put` and `stored_cqsPrioqDequeue`.
-/

set_option autoImplicit false

namespace CharmRuntime.Queueing

open Lib Function List
open Multiset (notMem_zero cons_bind cons_add)

universe u

variable {α : Type u}

/-- `prioqelt_struct`, without its chain links. -/
structure Prioqelt (α : Type u) where
  data : Deq α
  pri : Prio

/-- `prioq_struct`. -/
structure Prioq (α : Type u) where
  heapsize : Nat
  heapnext : Nat
  heap : Nat → Nat
  hashtab : Nat → List Nat
  hashKeySize : Nat
  hashEntrySize : Nat
  elts : Nat → Prioqelt α
  fresh : Nat

/-- `CqsPrioqInit`. -/
def cqsPrioqInit : Prioq α where
  heapsize := 100
  heapnext := 1
  heap := fun _ => 0
  hashtab := fun _ => []
  hashKeySize := prioqTabsize
  hashEntrySize := 0
  elts := fun _ => ⟨cqsDeqInit, ⟨0, 0, []⟩⟩
  fresh := 0

section

variable (pq : Prioq α)

/-- `CqsPrioqExpand`: the heap array is copied into one of twice the size. -/
def cqsPrioqExpand : Prioq α := { pq with heapsize := pq.heapsize * 2 }

/-- The hash value of a bucket as `CqsPrioqRehash` computes it. -/
def Prioqelt.hash (e : Prioqelt α) : Word :=
  prioHash (e.pri.bits.setWidth 32) (e.pri.data.take e.pri.ints.toNat)

/-- Insert the bucket `pe` before the first of chain `i`. -/
def chainCons (tab : Nat → List Nat) (i pe : Nat) : Nat → List Nat :=
  update tab i (pe :: tab i)

/-- `CqsPrioqRehash`: every bucket of the old chains, chain by chain, is inserted into a table of
twice the size. -/
def cqsPrioqRehash : Prioq α :=
  let newHsize := pq.hashKeySize * 2
  { pq with
    hashtab := (List.range pq.hashKeySize).foldl
      (fun tab i => (pq.hashtab i).foldl
        (fun tab pe => chainCons tab (hashIndex (pq.elts pe).hash newHsize) pe) tab)
      (fun _ => [])
    hashKeySize := newHsize }

/-- `CqsPrioGT` on the priorities of two buckets. -/
def Prioq.gt (a b : Nat) : Bool := cqsPrioGT (pq.elts a).pri (pq.elts b).pri

/-- The scan of the hash chain in `CqsPrioqGetDeq`. The chain index is taken modulo
`PRIOQ_TABSIZE`. -/
def Prioq.lookup (priobits : Word) (priodata : List Word) : Option Nat :=
  let prioints := prioInts priobits
  (pq.hashtab (hashIndex (prioHash priobits (priodata.take prioints)) prioqTabsize)).find? fun pe =>
    priobits = (pq.elts pe).pri.bits.setWidth 32 ∧
      priodata.take prioints = (pq.elts pe).pri.data.take prioints

/-- Allocate a bucket for a priority and insert it into the hash table. -/
def Prioq.linkBucket (priobits : Word) (priodata : List Word) : Prioq α :=
  let prioints := prioInts priobits
  let hashval := hashIndex (prioHash priobits (priodata.take prioints)) prioqTabsize
  { pq with
    elts := update pq.elts pq.fresh
      ⟨cqsDeqInit, priobits.setWidth 16, BitVec.ofNat 16 prioints, priodata.take prioints⟩
    fresh := pq.fresh + 1
    hashtab := chainCons pq.hashtab hashval pq.fresh
    hashEntrySize := pq.hashEntrySize + 1 }

/-- `if(pq->hash_entry_size > 2*pq->hash_key_size) CqsPrioqRehash(pq)`. -/
def Prioq.rehashIfFull : Prioq α :=
  if pq.hashEntrySize > 2 * pq.hashKeySize then cqsPrioqRehash pq else pq

/-- Insert the bucket `pe` into the heap. -/
def Prioq.heapInsert (pe : Nat) : Prioq α :=
  let heappos := pq.heapnext
  let pq' := { pq with heapnext := pq.heapnext + 1 }
  let pq'' := if heappos = pq'.heapsize then cqsPrioqExpand pq' else pq'
  { pq'' with heap := BinaryHeap.siftUp pq''.gt pe pq''.heap heappos }

/-- Allocate a bucket for a priority and insert it into the hash table and the heap. -/
def Prioq.newBucket (priobits : Word) (priodata : List Word) : Prioq α :=
  ((pq.linkBucket priobits priodata).rehashIfFull).heapInsert pq.fresh

/-- The bytes that `CqsPrioqGetDeq` asks `malloc` for when it allocates a bucket. `prioints-1` is
unsigned, so that a key of no words asks for 16 GiB. -/
def bucketBytes (prioints : Nat) : Nat := 88 + (BitVec.ofNat 32 prioints - 1).toNat * 4

/-- The scan finds the bucket, or there is memory for a new one. 16 GiB are not served, and
`CqsPrioqGetDeq` then writes through the null pointer. -/
def Prioq.serves (priobits : Word) (priodata : List Word) : Bool :=
  bucketBytes (prioInts priobits) < 2 ^ 34 || (pq.lookup priobits priodata).isSome

/-- `CqsPrioqGetDeq`: the queue and the address of the bucket for the priority, which is allocated
if the scan does not find one. -/
def cqsPrioqGetDeq (priobits : Word) (priodata : List Word) : Prioq α × Nat :=
  match pq.lookup priobits priodata with
  | some pe => (pq, pe)
  | none => (pq.newBucket priobits priodata, pq.fresh)

/-- Update the deque of the bucket `pe`. -/
def Prioq.setDeq (pe : Nat) (d : Deq α) : Prioq α :=
  { pq with elts := update pq.elts pe { pq.elts pe with data := d } }

/-- Insert a message at the head (`lifo`) or the tail of a deque. -/
def deqPut (lifo : Bool) (d : Deq α) (data : α) : Deq α :=
  if lifo then cqsDeqEnqueueLifo d data else cqsDeqEnqueueFifo d data

/-- `d=CqsPrioqGetDeq(pq, priobits, priodata)` followed by the insertion into `d`. -/
def Prioq.put (priobits : Word) (priodata : List Word) (lifo : Bool) (data : α) :
    Prioq α :=
  let r := cqsPrioqGetDeq pq priobits priodata
  r.1.setDeq r.2 (deqPut lifo (r.1.elts r.2).data data)

/-- Unlink the root bucket from its hash chain and restore the heap without it. -/
def Prioq.removeRoot : Prioq α :=
  let pe := pq.heap 1
  let heapnext := pq.heapnext - 1
  { pq with
    hashtab := fun i => (pq.hashtab i).filter (· ≠ pe)
    hashEntrySize := pq.hashEntrySize - 1
    heapnext := heapnext
    heap := BinaryHeap.siftDown pq.gt (pq.heap heapnext) heapnext pq.heap 1 }

/-- `CqsPrioqDequeue`. -/
def cqsPrioqDequeue : Option α × Prioq α :=
  if pq.heapnext = 1 then (none, pq)
  else
    let pe := pq.heap 1
    let r := cqsDeqDequeue (pq.elts pe).data
    let pq' := pq.setDeq pe r.2
    (r.1, if r.2.head = r.2.tail then pq'.removeRoot else pq')

/-! ## Invariant -/

/-- The buckets in the heap. -/
def Prioq.live : Multiset Nat := BinaryHeap.slots pq.heap pq.heapnext

/-- What the heap compares of a bucket. -/
def Prioq.keyOf (pe : Nat) : List Nat := (pq.elts pe).pri.key

/-- The word count of a stored priority is that of its bits, and as many words are stored. -/
structure Prio.Ok (p : Prio) : Prop where
  ints_eq : p.ints.toNat = prioInts (p.bits.setWidth 32)
  length_eq : p.data.length = p.ints.toNat

/-- The heap and the hash table fit together: the heap is ordered, its entries are distinct
allocated buckets, and every chained bucket is one of them. -/
structure Prioq.Frame : Prop where
  heapnext_pos : 1 ≤ pq.heapnext
  heapnext_le : pq.heapnext ≤ pq.heapsize
  tabsize_le : prioqTabsize ≤ pq.hashKeySize
  nodup : pq.live.Nodup
  fresh : ∀ pe ∈ pq.live, pe < pq.fresh
  chained : ∀ i, ∀ pe ∈ pq.hashtab i, pe ∈ pq.live
  prio : ∀ pe ∈ pq.live, (pq.elts pe).pri.Ok
  ordered : BinaryHeap.Ordered pq.keyOf pq.heap pq.heapnext

/-- What every operation on a priority queue keeps. -/
structure Prioq.Inv : Prop extends pq.Frame where
  stores : ∀ pe ∈ pq.live, ∃ l, l ≠ [] ∧ (pq.elts pe).data.Rep l

theorem Prioq.gt_iff (a b : Nat) : pq.gt a b = true ↔ pq.keyOf b < pq.keyOf a :=
  cqsPrioGT_iff _ _

end

theorem inv_cqsPrioqInit : (cqsPrioqInit : Prioq α).Inv where
  heapnext_pos := le_rfl
  heapnext_le := by show 1 ≤ 100; omega
  tabsize_le := le_rfl
  nodup := Multiset.nodup_zero
  fresh := fun _ h => absurd h (notMem_zero _)
  chained := fun _ _ h => absurd h (by simp [cqsPrioqInit])
  prio := fun _ h => absurd h (notMem_zero _)
  ordered := by
    intro i h2 hi
    have : i < 1 := hi
    omega
  stores := fun _ h => absurd h (notMem_zero _)

/-! ## The rehash -/

variable {l : List α} {j x pe : Nat} {bits : Word}

theorem mem_chainCons {tab : Nat → List Nat} {i : Nat} :
    x ∈ chainCons tab i pe j ↔ x ∈ tab j ∨ (x = pe ∧ i = j) := by
  unfold chainCons
  by_cases h : j = i
  · subst h
    simp [or_comm]
  · rw [update_of_ne h]
    simp [Ne.symm h]

theorem mem_foldl_chainCons (idx : Nat → Nat) : ∀ (chain : List Nat) (tab : Nat → List Nat),
      x ∈ chain.foldl (fun tab pe => chainCons tab (idx pe) pe) tab j ↔
        x ∈ tab j ∨ (x ∈ chain ∧ idx x = j)
  | [], tab => by simp
  | pe :: chain, tab => by
    rw [foldl_cons, mem_foldl_chainCons idx chain, mem_chainCons, mem_cons]
    constructor
    · rintro ((h | ⟨rfl, h⟩) | ⟨h, h'⟩)
      · exact .inl h
      · exact .inr ⟨.inl rfl, h⟩
      · exact .inr ⟨.inr h, h'⟩
    · rintro (h | ⟨rfl | h, h'⟩)
      · exact .inl (.inl h)
      · exact .inl (.inr ⟨rfl, h'⟩)
      · exact .inr ⟨h, h'⟩

/-- After a rehash a bucket is in the chain its hash value selects in the new table, if it was in
a chain of the old one. -/
theorem mem_cqsPrioqRehash {pq : Prioq α} : pe ∈ (cqsPrioqRehash pq).hashtab j ↔
      (∃ i < pq.hashKeySize, pe ∈ pq.hashtab i) ∧
        hashIndex (pq.elts pe).hash (pq.hashKeySize * 2) = j := by
  have h := mem_foldl_chainCons (fun pe => hashIndex (pq.elts pe).hash (pq.hashKeySize * 2))
    (x := pe) (j := j) ((List.range pq.hashKeySize).flatMap pq.hashtab) (fun _ => [])
  simp only [foldl_flatMap, not_mem_nil, false_or, mem_flatMap, mem_range] at h
  exact h

/-! ## A new bucket -/

section NewBucket

variable (pq : Prioq α)

/-- A rehash changes the hash table only. -/
theorem rehashIfFull_eq : pq.rehashIfFull =
    { pq with hashtab := pq.rehashIfFull.hashtab, hashKeySize := pq.rehashIfFull.hashKeySize } := by
  unfold Prioq.rehashIfFull
  split <;> rfl

theorem rehashIfFull_hashKeySize_le : pq.hashKeySize ≤ pq.rehashIfFull.hashKeySize := by
  unfold Prioq.rehashIfFull
  split
  · show pq.hashKeySize ≤ pq.hashKeySize * 2
    omega
  · exact le_rfl

/-- A bucket chained after the insertion was chained before. -/
theorem mem_rehashIfFull (h : pe ∈ pq.rehashIfFull.hashtab j) : ∃ i, pe ∈ pq.hashtab i := by
  unfold Prioq.rehashIfFull at h
  split at h
  · obtain ⟨⟨i, -, hi⟩, -⟩ := mem_cqsPrioqRehash.1 h
    exact ⟨i, hi⟩
  · exact ⟨j, h⟩

variable (pe : Nat)

theorem heapInsert_eq : pq.heapInsert pe = { pq with
    heapsize := (pq.heapInsert pe).heapsize
    heapnext := pq.heapnext + 1
    heap := BinaryHeap.siftUp pq.gt pe pq.heap pq.heapnext } := by
  unfold Prioq.heapInsert
  dsimp only
  split <;> rfl

theorem heapInsert_heapnext_le (h1 : 1 ≤ pq.heapnext) (h : pq.heapnext ≤ pq.heapsize) :
    (pq.heapInsert pe).heapnext ≤ (pq.heapInsert pe).heapsize := by
  unfold Prioq.heapInsert
  dsimp only
  split
  · show pq.heapnext + 1 ≤ pq.heapsize * 2
    omega
  · show pq.heapnext + 1 ≤ pq.heapsize
    omega

theorem live_heapInsert (h1 : 1 ≤ pq.heapnext) : (pq.heapInsert pe).live = pe ::ₘ pq.live := by
  unfold Prioq.live
  rw [heapInsert_eq]
  exact BinaryHeap.slots_push _ _ _ h1

end NewBucket

section

variable {pq : Prioq α} {bits : Word} {words : List Word}

theorem newBucket_elts : (pq.newBucket bits words).elts =
    update pq.elts pq.fresh ⟨cqsDeqInit, bits.setWidth 16,
      BitVec.ofNat 16 (prioInts bits), words.take (prioInts bits)⟩ := by
  rw [Prioq.newBucket, heapInsert_eq, rehashIfFull_eq]
  rfl

theorem newBucket_heapnext : (pq.newBucket bits words).heapnext = pq.heapnext + 1 := by
  rw [Prioq.newBucket, heapInsert_eq, rehashIfFull_eq]
  rfl

theorem newBucket_hashtab :
    (pq.newBucket bits words).hashtab = (pq.linkBucket bits words).rehashIfFull.hashtab := by
  rw [Prioq.newBucket, heapInsert_eq]

theorem newBucket_heap : (pq.newBucket bits words).heap =
    BinaryHeap.siftUp (pq.newBucket bits words).gt pq.fresh pq.heap pq.heapnext := by
  rw [Prioq.newBucket, heapInsert_eq, rehashIfFull_eq]
  rfl

variable (h : pq.Frame)

include h

theorem Prioq.Frame.live_newBucket : (pq.newBucket bits words).live = pq.fresh ::ₘ pq.live := by
  unfold Prioq.newBucket
  rw [live_heapInsert]
  · rw [rehashIfFull_eq]
    rfl
  · rw [rehashIfFull_eq]
    exact h.heapnext_pos

theorem Prioq.Frame.fresh_notMem : pq.fresh ∉ pq.live := fun hm =>
  lt_irrefl _ (h.fresh _ hm)

theorem Prioq.Frame.newBucket_elts_live (hpe : pe ∈ pq.live) :
    (pq.newBucket bits words).elts pe = pq.elts pe := by
  rw [newBucket_elts, update_of_ne]
  rintro rfl
  exact h.fresh_notMem hpe

/-- The chains hold the buckets in use, also after one was allocated. -/
theorem Prioq.Frame.newBucket_chained (i : Nat) :
    ∀ pe ∈ (pq.newBucket bits words).hashtab i, pe ∈ (pq.newBucket bits words).live := by
  intro pe hpe
  rw [h.live_newBucket]
  rw [newBucket_hashtab] at hpe
  obtain ⟨j, hj⟩ := mem_rehashIfFull _ hpe
  rcases mem_chainCons.1 hj with hold | ⟨rfl, -⟩
  · exact Multiset.mem_cons_of_mem (h.chained j pe hold)
  · exact Multiset.mem_cons_self _ _

theorem Prioq.Frame.newBucket_ordered : BinaryHeap.Ordered (pq.newBucket bits words).keyOf
      (pq.newBucket bits words).heap (pq.newBucket bits words).heapnext := by
  have hold : BinaryHeap.Ordered (pq.newBucket bits words).keyOf pq.heap pq.heapnext := by
    refine h.ordered.congr fun pe hpe => ?_
    unfold Prioq.keyOf
    rw [h.newBucket_elts_live hpe]
  have hgt := (pq.newBucket bits words).gt_iff
  have := BinaryHeap.ordered_push hgt pq.fresh hold
  rw [newBucket_heap, newBucket_heapnext]
  exact this

end

theorem prioInts_eq (h : bits.toNat < 2 ^ 16) : prioInts bits = (bits.toNat + 31) / 32 := by
  have hadd : (bits + cintBits - 1).toNat = bits.toNat + 31 := by
    show (2 ^ 32 - 1 + (bits.toNat + 32) % 2 ^ 32) % 2 ^ 32 = bits.toNat + 31
    omega
  rw [prioInts, BitVec.toNat_udiv, hadd]
  rfl

theorem prioInts_lt (h : bits.toNat < 2 ^ 16) : prioInts bits < 2 ^ 16 := by
  rw [prioInts_eq h]
  omega

section Put

variable {pq : Prioq α} {bits : Word} {words : List Word}

theorem setWidth_bits (hbits : bits.toNat < 2 ^ 16) : (bits.setWidth 16).setWidth 32 = bits := by
  apply BitVec.eq_of_toNat_eq
  rw [BitVec.toNat_setWidth, BitVec.toNat_setWidth, Nat.mod_eq_of_lt hbits]
  exact Nat.mod_eq_of_lt bits.isLt

/-- The priority of a new bucket is well formed if its number of bits fits in 16 bits. -/
theorem newPrio_ok (hbits : bits.toNat < 2 ^ 16) (hlen : prioInts bits ≤ words.length) :
    Prio.Ok ⟨bits.setWidth 16, BitVec.ofNat 16 (prioInts bits), words.take (prioInts bits)⟩ := by
  have hw := setWidth_bits hbits
  have hi : (BitVec.ofNat 16 (prioInts bits)).toNat = prioInts bits := by
    rw [BitVec.toNat_ofNat, Nat.mod_eq_of_lt (prioInts_lt hbits)]
  refine ⟨?_, ?_⟩
  · rw [hi, hw]
  · rw [hi, length_take, Nat.min_eq_left hlen]

/-- The compared words of a well formed priority are all its words. -/
theorem Prio.Ok.key_eq {p : Prio} (h : p.Ok) : p.key = p.data.map BitVec.toNat := by
  unfold Prio.key
  rw [← h.length_eq, wordValues_length]

theorem Prioq.Frame.newBucket (h : pq.Frame) (hbits : bits.toNat < 2 ^ 16)
    (hlen : prioInts bits ≤ words.length) : (pq.newBucket bits words).Frame where
  heapnext_pos := by
    rw [newBucket_heapnext]
    omega
  heapnext_le := by
    refine heapInsert_heapnext_le _ _ ?_ ?_
    · rw [rehashIfFull_eq]
      exact h.heapnext_pos
    · rw [rehashIfFull_eq]
      exact h.heapnext_le
  tabsize_le := by
    rw [Prioq.newBucket, heapInsert_eq]
    exact le_trans h.tabsize_le (rehashIfFull_hashKeySize_le (pq.linkBucket bits words))
  nodup := by
    rw [h.live_newBucket]
    exact Multiset.nodup_cons.2 ⟨h.fresh_notMem, h.nodup⟩
  fresh := by
    intro pe hpe
    have hf : (pq.newBucket bits words).fresh = pq.fresh + 1 := by
      rw [Prioq.newBucket, heapInsert_eq, rehashIfFull_eq]
      rfl
    rw [h.live_newBucket] at hpe
    rw [hf]
    rcases Multiset.mem_cons.1 hpe with rfl | hpe
    · exact Nat.lt_succ_self _
    · exact Nat.lt_succ_of_lt (h.fresh pe hpe)
  chained := h.newBucket_chained
  prio := by
    intro pe hpe
    rw [h.live_newBucket] at hpe
    rcases Multiset.mem_cons.1 hpe with rfl | hpe
    · rw [newBucket_elts, update_self]
      exact newPrio_ok hbits hlen
    · rw [h.newBucket_elts_live hpe]
      exact h.prio pe hpe
  ordered := h.newBucket_ordered

variable {d : Deq α}

theorem setDeq_pri : ((pq.setDeq pe d).elts x).pri = (pq.elts x).pri := by
  unfold Prioq.setDeq
  by_cases hx : x = pe
  · subst hx
    simp
  · simp [update_of_ne hx]

theorem setDeq_hashtab : (pq.setDeq pe d).hashtab = pq.hashtab := rfl

theorem setDeq_self : ((pq.setDeq pe d).elts pe).data = d := by
  simp [Prioq.setDeq]

theorem setDeq_of_ne (d : Deq α) (h : x ≠ pe) : (pq.setDeq pe d).elts x = pq.elts x := by
  simp [Prioq.setDeq, update_of_ne h]

theorem setDeq_lookup : (pq.setDeq pe d).lookup bits words = pq.lookup bits words := by
  simp only [Prioq.lookup, setDeq_hashtab, setDeq_pri]

theorem setDeq_keyOf : (pq.setDeq pe d).keyOf = pq.keyOf := by
  funext x
  unfold Prioq.keyOf
  rw [setDeq_pri]

/-- Updating a deque touches neither the heap nor the hash table. -/
theorem Prioq.Frame.setDeq (h : pq.Frame) (pe : Nat) (d : Deq α) : (pq.setDeq pe d).Frame where
  __ := h
  prio := by
    intro x hx
    rw [setDeq_pri]
    exact h.prio x hx
  ordered := by
    rw [setDeq_keyOf]
    exact h.ordered

/-- Storing a list of messages in one bucket, while the other buckets store messages, completes the
invariant. -/
theorem Prioq.Frame.setDeq_inv (h : pq.Frame) (hd : d.Rep l) (hl : l ≠ [])
    (hrest : ∀ x ∈ pq.live, x ≠ pe → ∃ l, l ≠ [] ∧ (pq.elts x).data.Rep l) :
    (pq.setDeq pe d).Inv where
  toFrame := h.setDeq pe d
  stores := by
    intro x hx
    by_cases hxe : x = pe
    · subst hxe
      rw [setDeq_self]
      exact ⟨l, hl, hd⟩
    · rw [setDeq_of_ne d hxe]
      exact hrest x hx hxe

theorem rep_deqPut (h : d.Rep l) (lifo : Bool) (data : α) :
    (deqPut lifo d data).Rep (if lifo then data :: l else l ++ [data]) := by
  cases lifo with
  | true => exact rep_cqsDeqEnqueueLifo h data
  | false => exact rep_cqsDeqEnqueueFifo h data

theorem deqPut_ne_nil (lifo : Bool) (data : α) (l : List α) :
    (if lifo then data :: l else l ++ [data]) ≠ [] := by
  cases lifo <;> simp

/-- A message of a priority that the scan does not find gets a bucket of its own. -/
theorem put_of_lookup_none (hl : pq.lookup bits words = none) (lifo : Bool) (data : α) :
    pq.put bits words lifo data =
      (pq.newBucket bits words).setDeq pq.fresh (deqPut lifo cqsDeqInit data) := by
  have hdata : ((pq.newBucket bits words).elts pq.fresh).data = cqsDeqInit := by
    rw [newBucket_elts, update_self]
  rw [Prioq.put, cqsPrioqGetDeq, hl]
  rw [hdata]

/-- What a successful scan says of the bucket it returns. -/
theorem Prioq.Frame.lookup_some (h : pq.Frame) (hl : pq.lookup bits words = some pe) :
    pe ∈ pq.live ∧ (pq.elts pe).pri.bits.setWidth 32 = bits ∧
      (pq.elts pe).pri.data = words.take (prioInts bits) := by
  have hpe := h.chained _ pe (mem_of_find?_eq_some hl)
  have hp := find?_some hl
  rw [decide_eq_true_eq] at hp
  obtain ⟨hb, hw⟩ := hp
  refine ⟨hpe, hb.symm, ?_⟩
  have hok := h.prio pe hpe
  rw [hw, take_of_length_le]
  rw [hok.length_eq, hok.ints_eq, ← hb]

/-- A scan that finds nothing leaves no bucket of the priority in the scanned chain. -/
theorem Prioq.lookup_none (hl : pq.lookup bits words = none) : ∀ pe ∈ pq.hashtab
        (hashIndex (prioHash bits (words.take (prioInts bits))) prioqTabsize),
      ¬ (bits = (pq.elts pe).pri.bits.setWidth 32 ∧
        words.take (prioInts bits) = (pq.elts pe).pri.data.take (prioInts bits)) := by
  intro pe hpe
  have := find?_eq_none.1 hl pe hpe
  simpa using this

/-- The insertion of a message keeps the invariant. -/
theorem Prioq.Inv.put (h : pq.Inv) (hbits : bits.toNat < 2 ^ 16)
    (hlen : prioInts bits ≤ words.length) (lifo : Bool) (data : α) :
    (pq.put bits words lifo data).Inv := by
  unfold Prioq.put cqsPrioqGetDeq
  cases hl : pq.lookup bits words with
  | some pe =>
    obtain ⟨l, -, hrep⟩ := h.stores pe (h.lookup_some hl).1
    exact h.toFrame.setDeq_inv (rep_deqPut hrep lifo data) (deqPut_ne_nil lifo data l)
      fun x hx _ => h.stores x hx
  | none =>
    refine (h.toFrame.newBucket hbits hlen).setDeq_inv (l := if lifo then [data] else [] ++ [data])
      ?_ (deqPut_ne_nil lifo data []) ?_
    · have hrep := rep_deqPut (rep_cqsDeqInit (α := α)) lifo data
      rwa [newBucket_elts, update_self]
    · intro x hx hne
      rw [h.live_newBucket] at hx
      have hx' := (Multiset.mem_cons.1 hx).resolve_left hne
      rw [h.newBucket_elts_live hx']
      exact h.stores x hx'

end Put

/-! ## Removing a message -/

section Dequeue

variable {pq : Prioq α}

theorem heap_one_mem_live (hne : 1 < pq.heapnext) : pq.heap 1 ∈ pq.live :=
  BinaryHeap.mem_slots.2 ⟨1, le_rfl, hne, rfl⟩

/-- The message that is removed is the first one of the root bucket. -/
theorem cqsPrioqDequeue_fst (hne : pq.heapnext ≠ 1) (hroot : pq.heap 1 = pe) {x : α}
    (hrep : (pq.elts pe).data.Rep (x :: l)) : (cqsPrioqDequeue pq).1 = some x := by
  rw [cqsPrioqDequeue, if_neg hne, hroot]
  exact (cqsDeqDequeue_cons hrep).1

theorem live_removeRoot (hne : 1 < pq.heapnext) : pq.live = pq.heap 1 ::ₘ pq.removeRoot.live := by
  have h := BinaryHeap.slots_popRoot pq.gt pq.heap (n := pq.heapnext - 1) (by omega)
  rwa [show pq.heapnext - 1 + 1 = pq.heapnext by omega] at h

theorem Prioq.Frame.mem_removeRoot (h : pq.Frame) (hne : 1 < pq.heapnext) :
    pe ∈ pq.removeRoot.live ↔ pe ∈ pq.live ∧ pe ≠ pq.heap 1 := by
  have hnd := h.nodup
  rw [live_removeRoot hne, Multiset.nodup_cons] at hnd
  rw [live_removeRoot hne, Multiset.mem_cons]
  constructor
  · intro hpe
    exact ⟨.inr hpe, fun heq => hnd.1 (heq ▸ hpe)⟩
  · rintro ⟨hpe, hroot⟩
    exact hpe.resolve_left hroot

theorem Prioq.Frame.removeRoot (h : pq.Frame) (hne : 1 < pq.heapnext) : pq.removeRoot.Frame where
  heapnext_pos := by
    show 1 ≤ pq.heapnext - 1
    omega
  heapnext_le := by
    have := h.heapnext_le
    show pq.heapnext - 1 ≤ pq.heapsize
    omega
  tabsize_le := h.tabsize_le
  nodup := by
    have := h.nodup
    rw [live_removeRoot hne] at this
    exact (Multiset.nodup_cons.1 this).2
  fresh := fun pe hpe => h.fresh pe ((h.mem_removeRoot hne).1 hpe).1
  chained := by
    intro i pe hpe
    obtain ⟨hpe, hroot⟩ := mem_filter.1 hpe
    exact (h.mem_removeRoot hne).2 ⟨h.chained i pe hpe, of_decide_eq_true hroot⟩
  prio := fun pe hpe => h.prio pe ((h.mem_removeRoot hne).1 hpe).1
  ordered := by
    have hord := h.ordered
    rw [show pq.heapnext = pq.heapnext - 1 + 1 by omega] at hord
    exact BinaryHeap.ordered_popRoot pq.gt_iff hord

/-- The root bucket survives the removal of a message exactly if it stores another one. -/
theorem Prioq.Inv.cqsPrioqDequeue_eq (h : pq.Inv) (hne : 1 < pq.heapnext) :
    ∃ x l d, (pq.elts (pq.heap 1)).data.Rep (x :: l) ∧ Deq.Rep d l ∧
      cqsPrioqDequeue pq = (some x, if l = [] then (pq.setDeq (pq.heap 1) d).removeRoot
        else pq.setDeq (pq.heap 1) d) := by
  obtain ⟨l', hl', hrep⟩ := h.stores _ (heap_one_mem_live hne)
  cases l' with
  | nil => exact absurd rfl hl'
  | cons x l =>
    obtain ⟨hx, hd⟩ := cqsDeqDequeue_cons hrep
    refine ⟨x, l, _, hrep, hd, ?_⟩
    unfold cqsPrioqDequeue
    rw [if_neg (by omega)]
    simp only [hx, hd.head_eq_tail_iff]

/-- The removal of a message keeps the invariant. -/
theorem Prioq.Inv.cqsPrioqDequeue (h : pq.Inv) : (cqsPrioqDequeue pq).2.Inv := by
  by_cases hne : pq.heapnext = 1
  · unfold Queueing.cqsPrioqDequeue
    rw [if_pos hne]
    exact h
  · have h1 : 1 < pq.heapnext := by
      have := h.heapnext_pos
      omega
    obtain ⟨x, l, d, -, hd, he⟩ := h.cqsPrioqDequeue_eq h1
    rw [he]
    by_cases hl : l = []
    · rw [if_pos hl]
      refine ⟨(h.toFrame.setDeq _ d).removeRoot h1, fun pe hpe => ?_⟩
      obtain ⟨hpe, hroot⟩ := ((h.toFrame.setDeq _ d).mem_removeRoot h1).1 hpe
      show ∃ l, l ≠ [] ∧ ((pq.setDeq (pq.heap 1) d).elts pe).data.Rep l
      rw [setDeq_of_ne d (show pe ≠ pq.heap 1 from hroot)]
      exact h.stores pe hpe
    · rw [if_neg hl]
      exact h.toFrame.setDeq_inv hd hl fun y hy _ => h.stores y hy

end Dequeue

/-! ## The stored messages -/

/-- The messages of a bucket, each with the compared words of its priority. -/
def Prioq.messagesOf (pq : Prioq α) (pe : Nat) : Multiset (List Nat × α) :=
  ((pq.elts pe).data.toList.map fun m => (pq.keyOf pe, m) : List (List Nat × α))

/-- All stored messages, each with the compared words of its priority. -/
def Prioq.stored (pq : Prioq α) : Multiset (List Nat × α) := pq.live.bind pq.messagesOf

section Stored

variable {pq : Prioq α} {bits : Word} {words : List Word}

theorem stored_cqsPrioqInit : (cqsPrioqInit : Prioq α).stored = 0 := rfl

variable {pe : Nat}

/-- The messages outside a bucket. -/
theorem stored_eq_add (hpe : pe ∈ pq.live) :
    pq.stored = pq.messagesOf pe + (pq.live.erase pe).bind pq.messagesOf := by
  unfold Prioq.stored
  rw [← cons_bind, Multiset.cons_erase hpe]

/-- Updating one deque changes the messages of that bucket only. -/
theorem Prioq.Frame.stored_setDeq (h : pq.Frame) (hpe : pe ∈ pq.live) (d : Deq α) :
    (pq.setDeq pe d).stored = (d.toList.map fun m => (pq.keyOf pe, m) : List (List Nat × α)) +
        (pq.live.erase pe).bind pq.messagesOf := by
  rw [stored_eq_add (show pe ∈ (pq.setDeq pe d).live from hpe)]
  congr 1
  · unfold Prioq.messagesOf
    rw [setDeq_self, setDeq_keyOf]
  · refine Multiset.bind_congr fun x hx => ?_
    have hne : x ≠ pe := by
      rintro rfl
      exact (h.nodup.mem_erase_iff.1 hx).1 rfl
    unfold Prioq.messagesOf
    rw [setDeq_of_ne d hne, setDeq_keyOf]

theorem messagesOf_rep (h : (pq.elts pe).data.Rep l) :
    pq.messagesOf pe = (l.map fun m => (pq.keyOf pe, m) : List (List Nat × α)) := by
  unfold Prioq.messagesOf
  rw [h.toList_eq]

/-- Inserting into the deque of a bucket adds one message with the key of the bucket. -/
theorem Prioq.Frame.stored_setDeq_put (h : pq.Frame) (hpe : pe ∈ pq.live)
    (hrep : (pq.elts pe).data.Rep l) (lifo : Bool) (data : α) :
    (pq.setDeq pe (deqPut lifo (pq.elts pe).data data)).stored =
      (pq.keyOf pe, data) ::ₘ pq.stored := by
  rw [h.stored_setDeq hpe, (rep_deqPut hrep lifo data).toList_eq, stored_eq_add hpe,
    messagesOf_rep hrep, ← cons_add]
  congr 1
  cases lifo with
  | true => rfl
  | false =>
    rw [if_neg (by simp), map_append, ← Multiset.coe_add, add_comm]
    rfl

/-- A new bucket stores nothing yet. -/
theorem Prioq.Frame.stored_newBucket (h : pq.Frame) :
    (pq.newBucket bits words).stored = pq.stored := by
  unfold Prioq.stored
  rw [h.live_newBucket, cons_bind]
  have hnew : (pq.newBucket bits words).messagesOf pq.fresh = 0 := by
    have hrep := rep_cqsDeqInit (α := α)
    unfold Prioq.messagesOf
    rw [newBucket_elts, update_self, hrep.toList_eq]
    rfl
  rw [hnew, zero_add]
  refine Multiset.bind_congr fun x hx => ?_
  unfold Prioq.messagesOf Prioq.keyOf
  rw [h.newBucket_elts_live hx]

/-- The insertion of a message stores it with the words of its priority. -/
theorem Prioq.Inv.stored_put (h : pq.Inv) (hbits : bits.toNat < 2 ^ 16)
    (hlen : prioInts bits ≤ words.length) (lifo : Bool) (data : α) :
    (pq.put bits words lifo data).stored =
      ((words.take (prioInts bits)).map BitVec.toNat, data) ::ₘ pq.stored := by
  unfold Prioq.put cqsPrioqGetDeq
  cases hl : pq.lookup bits words with
  | some pe =>
    obtain ⟨hpe, -, hw⟩ := h.lookup_some hl
    obtain ⟨l, -, hrep⟩ := h.stores pe hpe
    rw [h.toFrame.stored_setDeq_put hpe hrep, Prioq.keyOf, (h.prio pe hpe).key_eq, hw]
  | none =>
    have hf := h.toFrame.newBucket hbits hlen
    have hpe : pq.fresh ∈ (pq.newBucket bits words).live := by
      rw [h.live_newBucket]
      exact Multiset.mem_cons_self _ _
    have hrep : ((pq.newBucket bits words).elts pq.fresh).data.Rep [] := by
      rw [newBucket_elts, update_self]
      exact rep_cqsDeqInit
    rw [hf.stored_setDeq_put hpe hrep, h.stored_newBucket, Prioq.keyOf, (hf.prio _ hpe).key_eq,
      newBucket_elts, update_self]

/-- The removal takes a message whose key is minimal among the stored ones. -/
theorem Prioq.Inv.stored_cqsPrioqDequeue (h : pq.Inv) (hne : 1 < pq.heapnext) :
    ∃ k x, (Queueing.cqsPrioqDequeue pq).1 = some x ∧
      pq.stored = (k, x) ::ₘ (Queueing.cqsPrioqDequeue pq).2.stored ∧ ∀ p ∈ pq.stored, k ≤ p.1 := by
  obtain ⟨x, l, d, hrep, hd, he⟩ := h.cqsPrioqDequeue_eq hne
  have hroot := heap_one_mem_live hne
  refine ⟨pq.keyOf (pq.heap 1), x, by rw [he], ?_, ?_⟩
  · have hset : pq.stored = (pq.keyOf (pq.heap 1), x) ::ₘ (pq.setDeq (pq.heap 1) d).stored := by
      rw [h.toFrame.stored_setDeq hroot, hd.toList_eq, stored_eq_add hroot, messagesOf_rep hrep,
        ← cons_add]
      rfl
    rw [he, hset]
    by_cases hl : l = []
    · rw [if_pos hl]
      congr 1
      have hempty : (pq.setDeq (pq.heap 1) d).messagesOf (pq.heap 1) = 0 := by
        unfold Prioq.messagesOf
        rw [setDeq_self, hd.toList_eq, hl]
        rfl
      unfold Prioq.stored
      rw [live_removeRoot (show 1 < (pq.setDeq (pq.heap 1) d).heapnext from hne), cons_bind]
      show (pq.setDeq (pq.heap 1) d).messagesOf (pq.heap 1) + _ = _
      rw [hempty, zero_add]
      rfl
    · rw [if_neg hl]
  · rintro ⟨k, m⟩ hm
    obtain ⟨pe, hpe, hm⟩ := Multiset.mem_bind.1 hm
    obtain ⟨i, h1, hi, rfl⟩ := BinaryHeap.mem_slots.1 hpe
    have hk : k = pq.keyOf (pq.heap i) := by
      unfold Prioq.messagesOf at hm
      rw [Multiset.mem_coe, mem_map] at hm
      obtain ⟨m', -, hm'⟩ := hm
      exact (congrArg Prod.fst hm').symm
    rw [hk]
    exact h.ordered.root_le i h1 hi

/-- A priority queue in use stores a message. -/
theorem Prioq.Inv.stored_eq_zero_iff (h : pq.Inv) : pq.stored = 0 ↔ pq.heapnext = 1 := by
  constructor
  · intro h0
    by_contra hne
    have h1 : 1 < pq.heapnext := by
      have := h.heapnext_pos
      omega
    obtain ⟨k, x, -, hs, -⟩ := h.stored_cqsPrioqDequeue h1
    rw [h0] at hs
    exact Multiset.zero_ne_cons hs
  · intro h1
    unfold Prioq.stored Prioq.live
    rw [h1]
    rfl

end Stored

end CharmRuntime.Queueing
