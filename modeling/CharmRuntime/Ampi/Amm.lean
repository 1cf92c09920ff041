import CharmRuntime.Lib.HandleList
import Mathlib.Data.List.Perm.Subperm

/-!
# The queues of message matching

The model of `Amm`: a queue of messages or requests, each with a tag and a source. The entries are
linked by pointers, `lasth` points to the last of these pointers, and the first 32 entries come from
a pool that is searched from `startIdx` on.

`Holds q es` says that the queue `q` holds the entries `es`, in order. `put` appends an entry
(`Holds.put`), and `get` returns and removes the first one that matches (`Holds.get`); neither the
abort of `newEntry` nor an endless loop is possible.
-/

set_option autoImplicit false

namespace CharmRuntime.Ampi

open Lib.HandleList Function List

variable {T : Type}

/-! ## Tags -/

/-- `MPI_TAG_UB_VALUE`. -/
def mpiTagUbValue : Int := 1073741824

/-- `MPI_ANY_TAG`. -/
def mpiAnyTag : Int := mpiTagUbValue + 1

/-- `MPI_ANY_SOURCE`. -/
def mpiAnySource : Int := -1

/-- The two numbers that are matched, of a message or of a request. -/
structure Tags where
  tag : Int
  src : Int
  deriving DecidableEq

/-- `Amm::match`. -/
def Tags.matches (tags1 tags2 : Tags) : Bool :=
  if tags1.tag = tags2.tag ∧ tags1.src = tags2.src then true
  else if tags1.tag = tags2.tag ∧ (tags1.src = mpiAnySource ∨ tags2.src = mpiAnySource) then true
  else if tags1.src = tags2.src ∧ (tags1.tag = mpiAnyTag ∨ tags2.tag = mpiAnyTag) then true
  else if (tags1.src = mpiAnySource ∨ tags2.src = mpiAnySource) ∧
    (tags1.tag = mpiAnyTag ∨ tags2.tag = mpiAnyTag) then true
  else false

/-- Each of the two numbers agrees or is a wildcard on one side. -/
theorem Tags.matches_iff (t u : Tags) : t.matches u = true ↔
    (t.tag = u.tag ∨ t.tag = mpiAnyTag ∨ u.tag = mpiAnyTag) ∧
      (t.src = u.src ∨ t.src = mpiAnySource ∨ u.src = mpiAnySource) := by
  simp only [Tags.matches, Bool.if_true_left, Bool.or_false, Bool.or_eq_true, decide_eq_true_eq]
  tauto

theorem Tags.matches_comm (t u : Tags) : t.matches u = u.matches t := by
  rw [Bool.eq_iff_iff, Tags.matches_iff, Tags.matches_iff]
  tauto

/-! ## The queue -/

/-- `AMPI_AMM_POOL_SIZE`. -/
def ammPoolSize : Nat := 32

/-- `AmmEntry`, without its link. -/
structure AmmEntry (T : Type) where
  tags : Tags
  msg : T

/-- `Amm`. The addresses below `ammPoolSize` are the entries of the pool. `link` holds `first` and
the `next` of every entry, `heap` the addresses that `new` has returned and that have not been
deleted. -/
structure Amm (T : Type) where
  link : Handle → Option Nat
  lasth : Handle
  startIdx : Nat
  validEntries : Nat → Bool
  entries : Nat → Option (AmmEntry T)
  heap : List Nat

/-- The constructor. -/
def Amm.init : Amm T := ⟨fun _ => none, none, 0, fun _ => false, fun _ => none, []⟩

namespace Amm

/-- The constructor of `AmmEntry` at an address. -/
def construct (q : Amm T) (a : Nat) (e : AmmEntry T) : Amm T :=
  { q with
    link := update q.link (some a) none
    entries := update q.entries a (some e) }

/-- `newEntry`; `addr` is what `new` returns where it is called. The abort is `none`. -/
def newEntry (q : Amm T) (e : AmmEntry T) (addr : Nat) : Option (Nat × Amm T) :=
  if (range ammPoolSize).all q.validEntries then
    some (addr, { q.construct addr e with heap := addr :: q.heap })
  else
    match (range' q.startIdx (ammPoolSize - q.startIdx)).find? (fun i => !q.validEntries i) with
    | some i =>
      some (i, { q.construct i e with
        validEntries := update q.validEntries i true
        startIdx := i + 1 })
    | none => none

/-- `deleteEntry`. -/
def deleteEntry (q : Amm T) (ent : Nat) : Amm T :=
  if ent < ammPoolSize then
    { q with
      validEntries := update q.validEntries ent false
      startIdx := min ent q.startIdx }
  else { q with heap := q.heap.erase ent }

/-- `put`. -/
def put (q : Amm T) (e : AmmEntry T) (addr : Nat) : Option (Amm T) :=
  (q.newEntry e addr).map fun (ent, q) =>
    { q with link := update q.link q.lasth (some ent), lasth := some ent }

/-- The loop of `get` and `probe`: the handle that leads to the first entry that matches, and the
entry. The loop has a round for every entry there can be, and one more. -/
def find (q : Amm T) (tags : Tags) : Option (Option (Handle × Nat)) :=
  seek q.link (fun a => (q.entries a).any fun e => tags.matches e.tags)
    (ammPoolSize + q.heap.length + 1) none

/-- What `get` does with the entry that matches. -/
def unlink (q : Amm T) (enth : Handle) (ent : Nat) : Amm T :=
  deleteEntry { q with
    link := update q.link enth (q.link (some ent))
    lasth := if q.link (some ent) = none then enth else q.lasth } ent

/-- `get`: the entry that was removed, with its tags. -/
def get (q : Amm T) (tags : Tags) : Option (Option (AmmEntry T) × Amm T) :=
  match q.find tags with
  | none => none
  | some none => some (none, q)
  | some (some (enth, ent)) => some (q.entries ent, q.unlink enth ent)

/-- `probe`. -/
def probe (q : Amm T) (tags : Tags) : Option (Option (AmmEntry T)) :=
  (q.find tags).map fun found => found.bind fun (_, ent) => q.entries ent

end Amm

/-! ## The pool -/

/-- The entries at the addresses of `l` are in use: those of the pool are marked, and those before
`startIdx` are among them; the others are on the heap. -/
structure Pool (q : Amm T) (l : List Nat) : Prop where
  valid : ∀ i < ammPoolSize, q.validEntries i = true ↔ i ∈ l
  heap : ∀ a, ammPoolSize ≤ a → (a ∈ q.heap ↔ a ∈ l)
  heap_nodup : q.heap.Nodup
  start : ∀ i < q.startIdx, i < ammPoolSize ∧ i ∈ l

variable {q q' : Amm T} {l l1 l2 : List Nat} {es es1 : List (AmmEntry T)} {a addr : Nat}
  {e : AmmEntry T}
  {tags : Tags}

theorem pool_init : Pool (Amm.init : Amm T) [] where
  valid _ _ := by simp [Amm.init]
  heap _ _ := by simp [Amm.init]
  heap_nodup := nodup_nil
  start _ h := absurd h (Nat.not_lt_zero _)

theorem Pool.length_le (h : Pool q l) (hnd : l.Nodup) : l.length ≤ ammPoolSize + q.heap.length := by
  have hsub : l ⊆ range ammPoolSize ++ q.heap := by
    intro a ha
    rw [mem_append, mem_range]
    by_cases hlt : a < ammPoolSize
    · exact .inl hlt
    · exact .inr ((h.heap a (Nat.le_of_not_lt hlt)).2 ha)
  have hle := (hnd.subperm hsub).length_le
  rwa [length_append, length_range] at hle

/-- An entry of the pool is taken. -/
theorem Pool.take (h : Pool q l) (ha : a < ammPoolSize) (hstart : ∀ i < a, i ∈ l) (e : AmmEntry T) :
    Pool { q.construct a e with
      validEntries := update q.validEntries a true
      startIdx := a + 1 } (l ++ [a]) := by
  refine ⟨fun i hi => ?_, fun b hb => ?_, h.heap_nodup, fun i hi => ?_⟩
  · rw [mem_append, mem_singleton]
    by_cases hia : i = a
    · subst hia
      exact iff_of_true (update_self _ _ _) (.inr rfl)
    · rw [← h.valid i hi]
      show update q.validEntries a true i = true ↔ _
      rw [update_of_ne hia]
      exact ⟨.inl, fun hor => hor.resolve_right hia⟩
  · have hba : b ≠ a := by omega
    simp only [mem_append, mem_singleton, hba, or_false]
    exact h.heap b hb
  · rw [mem_append, mem_singleton]
    rcases Nat.lt_succ_iff_lt_or_eq.1 hi with hlt | heq
    · exact ⟨Nat.lt_trans hlt ha, .inl (hstart i hlt)⟩
    · exact ⟨heq ▸ ha, .inr heq⟩

section

variable (h : Pool q l) (ha : ammPoolSize ≤ addr) (hfresh : addr ∉ q.heap)

include h ha hfresh

/-- An entry is taken from the heap. -/
theorem Pool.new (e : AmmEntry T) :
    Pool { q.construct addr e with heap := addr :: q.heap } (l ++ [addr]) := by
  refine ⟨fun i hi => ?_, fun b hb => ?_, nodup_cons.2 ⟨hfresh, h.heap_nodup⟩, fun i hi => ?_⟩
  · have hne : i ≠ addr := by omega
    simp only [mem_append, mem_singleton, hne, or_false]
    exact h.valid i hi
  · rw [mem_append, mem_singleton, mem_cons, h.heap b hb, or_comm]
  · exact (h.start i hi).imp_right (mem_append_left _)

theorem Pool.newEntry
    (e : AmmEntry T) : ∃ b q', q.newEntry e addr = some (b, q') ∧ b ∉ l ∧ Pool q' (l ++ [b]) ∧
      q'.link = update q.link (some b) none ∧ q'.lasth = q.lasth ∧
      q'.entries = update q.entries b (some e) := by
  rw [Amm.newEntry]
  split
  · refine ⟨addr, _, rfl, fun hmem => hfresh ((h.heap addr ha).2 hmem), h.new ha hfresh e,
      rfl, rfl, rfl⟩
  · next hall =>
    -- some entry of the pool is free, and none before `startIdx` is
    obtain ⟨i, hi, hfree⟩ : ∃ i < ammPoolSize, q.validEntries i ≠ true := by
      simpa using hall
    have hsome : (range' q.startIdx (ammPoolSize - q.startIdx)).find?
        (fun i => !q.validEntries i) ≠ none := by
      rw [ne_eq, find?_eq_none]
      intro hnone
      have hge : q.startIdx ≤ i := by
        by_contra hlt
        exact hfree ((h.valid i hi).2 (h.start i (Nat.lt_of_not_le hlt)).2)
      exact hnone i (by rw [mem_range'_1]; omega) (by simpa using hfree)
    obtain ⟨b, hb⟩ := Option.ne_none_iff_exists'.1 hsome
    rw [hb]
    obtain ⟨hfree, hmem, hbefore⟩ := find?_range'_eq_some.1 hb
    rw [mem_range'_1] at hmem
    have hlt : b < ammPoolSize := by omega
    have hnot : b ∉ l := fun hmem => by simp [(h.valid b hlt).2 hmem] at hfree
    refine ⟨b, _, rfl, hnot, h.take hlt (fun j hj => ?_) e, rfl, rfl, rfl⟩
    by_cases hjs : j < q.startIdx
    · exact (h.start j hjs).2
    · refine (h.valid j (by omega)).1 ?_
      simpa using hbefore j (by omega) hj

end

theorem Pool.deleteEntry (h : Pool q (l1 ++ a :: l2)) (hnd : (l1 ++ a :: l2).Nodup) :
    Pool (q.deleteEntry a) (l1 ++ l2) := by
  obtain ⟨ha, hmem⟩ : a ∉ l1 ++ l2 ∧ ∀ b, b ∈ l1 ++ l2 ↔ b ≠ a ∧ b ∈ l1 ++ a :: l2 := by
    have hnd' := nodup_middle.1 hnd
    have hnot := (nodup_cons.1 hnd').1
    refine ⟨hnot, fun b => ?_⟩
    rw [perm_middle.mem_iff, mem_cons]
    exact ⟨fun hb => ⟨ne_of_mem_of_not_mem hb hnot, .inr hb⟩, fun hb => hb.2.resolve_left hb.1⟩
  rw [Amm.deleteEntry]
  split
  · next hlt =>
    refine ⟨fun i hi => ?_, fun b hb => ?_, h.heap_nodup, fun i hi => ?_⟩
    · rw [hmem]
      by_cases hia : i = a
      · subst hia
        simp
      · rw [← h.valid i hi]
        simp [hia]
    · rw [hmem, ← h.heap b hb]
      exact ⟨fun hb' => ⟨by omega, hb'⟩, fun hb' => hb'.2⟩
    · obtain ⟨hia, his⟩ := Nat.lt_min.1 hi
      exact ⟨(h.start i his).1, (hmem i).2 ⟨Nat.ne_of_lt hia, (h.start i his).2⟩⟩
  · next hge =>
    refine ⟨fun i hi => ?_, fun b hb => ?_, h.heap_nodup.erase a, fun i hi => ?_⟩
    · rw [hmem, ← h.valid i hi]
      exact ⟨fun hv => ⟨by omega, hv⟩, fun hv => hv.2⟩
    · rw [hmem, ← h.heap b hb]
      exact h.heap_nodup.mem_erase_iff
    · obtain ⟨hlt, hi⟩ := h.start i hi
      exact ⟨hlt, (hmem i).2 ⟨by omega, hi⟩⟩

/-! ## What a queue holds -/

variable (q l es) in
/-- The queue holds the entries `es`, at the addresses of `l`. -/
structure Stored : Prop where
  chain : Chain q.link none l
  last : q.lasth = lastHandle none l
  entries : l.map q.entries = es.map some
  nodup : l.Nodup
  pool : Pool q l

/-- The queue holds the entries `es`. -/
def Holds (q : Amm T) (es : List (AmmEntry T)) : Prop := ∃ l, Stored q l es

theorem holds_init : Holds (Amm.init : Amm T) [] := ⟨[], rfl, rfl, rfl, nodup_nil, pool_init⟩

theorem handles_nodup (h : l.Nodup) : ((none : Handle) :: l.map some).Nodup := by
  rw [nodup_cons]
  exact ⟨by simp, h.map fun _ _ => Option.some.inj⟩

theorem map_update_of_notMem {β : Type} (f : Nat → β) (b : β) (ha : a ∉ l) :
    l.map (update f a b) = l.map f :=
  map_congr_left fun _ hc => update_of_ne (ne_of_mem_of_not_mem hc ha) _ _

/-- `put` appends the entry, wherever `new` puts it. -/
theorem Holds.put (h : Holds q es) (ha : ammPoolSize ≤ addr) (hfresh : addr ∉ q.heap)
    (e : AmmEntry T) : ∃ q', q.put e addr = some q' ∧ Holds q' (es ++ [e]) := by
  obtain ⟨l, h⟩ := h
  obtain ⟨b, q', hnew, hb, hpool, hlink, hlast, hentries⟩ := h.pool.newEntry ha hfresh e
  have hput : q.put e addr =
      some { q' with link := update q'.link q'.lasth (some b), lasth := some b } := by
    rw [Amm.put, hnew]
    rfl
  refine ⟨_, hput, l ++ [b], ?_, ?_, ?_, ?_, hpool.valid, hpool.heap, hpool.heap_nodup, hpool.start⟩
  · rw [hlink, hlast, h.last]
    exact h.chain.concat (handles_nodup h.nodup) (by simpa using hb)
  · rw [lastHandle_append]
    rfl
  · rw [hentries, map_append, map_append, map_update_of_notMem _ _ hb, h.entries]
    simp
  · exact h.nodup.append (nodup_singleton b) (by simpa using hb)

/-- The entries before and after one in the queue. -/
theorem Stored.split (h : Stored q l es) {es2 : List (AmmEntry T)} (hes : es = es1 ++ e :: es2) :
    ∃ l1 a l2, l = l1 ++ a :: l2 ∧ l1.map q.entries = es1.map some ∧ q.entries a = some e ∧
      l2.map q.entries = es2.map some := by
  have hmap := h.entries
  rw [hes, map_append, map_cons] at hmap
  obtain ⟨l1, l', rfl, h1, h'⟩ := map_eq_append_iff.1 hmap
  obtain ⟨a, l2, rfl, ha, h2⟩ := map_eq_cons_iff.1 h'
  exact ⟨l1, a, l2, rfl, h1, ha, h2⟩

/-- A property of entries, at their addresses. -/
theorem all_false_of_map {f : AmmEntry T → Bool} (h : l.map q.entries = es.map some)
    (hes : ∀ e ∈ es, f e = false) : ∀ b ∈ l, (q.entries b).any f = false := by
  intro b hb
  obtain ⟨e, he, hbe⟩ := mem_map.1 (h ▸ mem_map_of_mem hb)
  rw [← hbe]
  exact hes e he

/-- The search of a queue in which nothing matches. -/
theorem Stored.find_none (h : Stored q l es)
    (hes : ∀ e ∈ es, tags.matches e.tags = false) : q.find tags = some none :=
  h.chain.seek_none (all_false_of_map h.entries hes) (Nat.lt_succ_of_le (h.pool.length_le h.nodup))

/-- The search of a queue in which something matches. -/
theorem Stored.find_some (h : Stored q (l1 ++ a :: l2) es) (h1 : l1.map q.entries = es1.map some)
    (ha : q.entries a = some e) (hes : ∀ e ∈ es1, tags.matches e.tags = false)
    (he : tags.matches e.tags = true) : q.find tags = some (some (lastHandle none l1, a)) := by
  refine h.chain.seek_found (all_false_of_map h1 hes) (by rw [ha]; exact he) ?_
  have hle := h.pool.length_le h.nodup
  rw [length_append, length_cons] at hle
  omega

theorem Stored.remove (h : Stored q (l1 ++ a :: l2) es) {es' : List (AmmEntry T)}
    (hentries : (l1 ++ l2).map q.entries = es'.map some) :
    Stored (q.unlink (lastHandle none l1) a) (l1 ++ l2) es' := by
  have hfields : ∀ q : Amm T, (q.deleteEntry a).link = q.link ∧ (q.deleteEntry a).lasth = q.lasth ∧
      (q.deleteEntry a).entries = q.entries := by
    intro q
    rw [Amm.deleteEntry]
    split <;> exact ⟨rfl, rfl, rfl⟩
  obtain ⟨-, -, hrest⟩ := chain_append.1 h.chain
  obtain ⟨hlink, hlast, hsame⟩ := hfields { q with
    link := update q.link (lastHandle none l1) (q.link (some a))
    lasth := if q.link (some a) = none then lastHandle none l1 else q.lasth }
  rw [Amm.unlink]
  refine ⟨?_, ?_, ?_, (nodup_middle.1 h.nodup).of_cons, ?_⟩
  · rw [hlink]
    exact h.chain.remove (handles_nodup h.nodup)
  · -- the link of the removed entry is null exactly when it is the last one
    rw [hlast, lastHandle_remove (a := a)]
    refine if_congr ?_ rfl h.last
    cases l2 with
    | nil => exact iff_of_true hrest rfl
    | cons b l2 => exact iff_of_false (by rw [hrest.1]; simp) (by simp)
  · rw [hsame]
    exact hentries
  · exact Pool.deleteEntry ⟨h.pool.valid, h.pool.heap, h.pool.heap_nodup, h.pool.start⟩ h.nodup

/-- `get` returns the first entry that matches and removes it. -/
theorem Holds.get (h : Holds q es) (tags : Tags) :
    ∃ q', q.get tags = some (es.find? (fun e => tags.matches e.tags), q') ∧
      Holds q' (es.eraseP fun e => tags.matches e.tags) := by
  obtain ⟨l, h⟩ := h
  by_cases hnone : ∀ e ∈ es, tags.matches e.tags = false
  · have hfind : es.find? (fun e => tags.matches e.tags) = none :=
      find?_eq_none.2 fun e he => by simp [hnone e he]
    have herase : es.eraseP (fun e => tags.matches e.tags) = es :=
      eraseP_of_forall_not fun e he => by simp [hnone e he]
    refine ⟨q, ?_, l, herase.symm ▸ h⟩
    rw [Amm.get, h.find_none hnone, hfind]
  · obtain ⟨e0, he0, hmatch0⟩ : ∃ e ∈ es, tags.matches e.tags = true := by
      simpa using hnone
    obtain ⟨e, es1, es2, hbefore, hmatch, hes, herase⟩ :=
      exists_of_eraseP (p := fun e => tags.matches e.tags) he0 hmatch0
    have hfind : es.find? (fun e => tags.matches e.tags) = some e :=
      find?_eq_some_iff_append.2 ⟨hmatch, es1, es2, hes, fun x hx => by simpa using hbefore x hx⟩
    obtain ⟨l1, a, l2, rfl, h1, ha, h2⟩ := h.split hes
    have hloop := h.find_some h1 ha (fun x hx => by simpa using hbefore x hx) hmatch
    refine ⟨q.unlink (lastHandle none l1) a, ?_, l1 ++ l2, ?_⟩
    · rw [Amm.get, hloop, hfind, ← ha]
    · rw [herase]
      exact h.remove (by rw [map_append, map_append, h1, h2])

/-- `probe` returns the first entry that matches. -/
theorem Holds.probe (h : Holds q es) (tags : Tags) :
    q.probe tags = some (es.find? fun e => tags.matches e.tags) := by
  obtain ⟨q', hget, -⟩ := h.get tags
  rw [Amm.get] at hget
  rw [Amm.probe]
  split at hget
  · cases hget
  · next hfind =>
    rw [hfind]
    obtain ⟨hnone, -⟩ := Prod.mk.inj (Option.some.inj hget)
    rw [← hnone]
    rfl
  · next enth ent hfind =>
    rw [hfind]
    obtain ⟨hsome, -⟩ := Prod.mk.inj (Option.some.inj hget)
    rw [← hsome]
    rfl

end CharmRuntime.Ampi
