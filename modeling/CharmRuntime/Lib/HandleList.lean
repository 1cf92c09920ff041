import Mathlib.Data.List.Nodup

/-!
# Singly linked lists with a handle to the last link

A handle is the address of a link: `none` is the link that leads to the first entry, `some a` the
link in the entry at address `a`. The memory is the function `link` from handles to what they lead
to. `Chain link h l` says that the handle `h` leads through the entries of `l` to null, and
`lastHandle h l` is the handle of the link that is null.

The operations are the search for the first entry with a property (`seek`), the insertion at the
last handle (`Chain.concat`), and the removal of an entry through the handle that leads to it
(`Chain.remove`).
-/

set_option autoImplicit false

namespace CharmRuntime.Lib.HandleList

open Function List

/-- The address of a link. -/
abbrev Handle := Option Nat

variable {link link' : Handle → Option Nat} {h : Handle} {a : Nat} {l l1 l2 : List Nat}

/-- The handle leads through the entries of the list to null. -/
def Chain (link : Handle → Option Nat) : Handle → List Nat → Prop
  | h, [] => link h = none
  | h, a :: l => link h = some a ∧ Chain link (some a) l

/-- The handle of the last link. -/
def lastHandle : Handle → List Nat → Handle
  | h, [] => h
  | _, a :: l => lastHandle (some a) l

theorem lastHandle_append : lastHandle h (l1 ++ l2) = lastHandle (lastHandle h l1) l2 := by
  induction l1 generalizing h with
  | nil => rfl
  | cons b l1 ih => exact ih

/-- The last link is the first one or that of an entry. -/
theorem lastHandle_mem : lastHandle h l ∈ h :: l.map some := by
  induction l generalizing h with
  | nil => exact mem_cons_self
  | cons b l ih => exact mem_cons_of_mem _ ih

/-- The handle leads through the entries of the list. -/
def Segment (link : Handle → Option Nat) : Handle → List Nat → Prop
  | _, [] => True
  | h, a :: l => link h = some a ∧ Segment link (some a) l

theorem chain_append : Chain link h (l1 ++ l2) ↔
    Segment link h l1 ∧ Chain link (lastHandle h l1) l2 := by
  induction l1 generalizing h with
  | nil => exact (iff_of_eq (true_and _)).symm
  | cons b l1 ih =>
    show _ ∧ _ ↔ (_ ∧ _) ∧ _
    rw [and_assoc]
    exact and_congr_right fun _ => ih

theorem chain_iff_segment : Chain link h l ↔ Segment link h l ∧ link (lastHandle h l) = none := by
  rw [← append_nil l, chain_append, append_nil]
  rfl

theorem Segment.congr (hs : Segment link h l)
    (heq : ∀ k ∈ h :: l.map some, link' k = link k) : Segment link' h l := by
  induction l generalizing h with
  | nil => trivial
  | cons b l ih =>
    refine ⟨(heq h mem_cons_self).trans hs.1, ih hs.2 fun k hk => ?_⟩
    exact heq k (mem_cons_of_mem _ hk)

/-- A chain depends on its own links only. -/
theorem Chain.congr (hc : Chain link h l) (heq : ∀ k ∈ h :: l.map some, link' k = link k) :
    Chain link' h l := by
  rw [chain_iff_segment] at hc ⊢
  refine ⟨hc.1.congr heq, ?_⟩
  rw [heq _ lastHandle_mem]
  exact hc.2

/-- The last link is no part of the way to the last entry. -/
theorem Segment.update_last (hs : Segment link h l) (hnd : (h :: l.map some).Nodup)
    (x : Option Nat) : Segment (update link (lastHandle h l) x) h l := by
  induction l generalizing h with
  | nil => trivial
  | cons b l ih =>
    obtain ⟨hh, hnd⟩ := nodup_cons.1 hnd
    refine ⟨?_, ih hs.2 hnd⟩
    have hne : h ≠ lastHandle (some b) l := fun he => hh (he ▸ lastHandle_mem)
    exact (update_of_ne hne _ _).trans hs.1

/-! ## Search -/

section Seek

variable (link) (p : Nat → Bool)

/-- The loop over the entries: the handle that leads to the first entry with the property, and the
entry. The inner `none` is the end of the list, the outer one that the loop has not ended within `n`
rounds. -/
def seek : Nat → Handle → Option (Option (Handle × Nat))
  | 0, _ => none
  | n + 1, h =>
    match link h with
    | none => some none
    | some a => if p a then some (some (h, a)) else seek n (some a)

variable {link p} {n : Nat}

/-- The loop goes past entries without the property. -/
theorem Chain.seek_append (hc : Chain link h (l1 ++ l2)) (hl : ∀ b ∈ l1, p b = false) :
    seek link p (l1.length + n) h = seek link p n (lastHandle h l1) := by
  induction l1 generalizing h with
  | nil =>
    rw [length_nil, Nat.zero_add]
    rfl
  | cons b l1 ih =>
    have hb := hl b mem_cons_self
    rw [length_cons, Nat.add_right_comm, seek, hc.1]
    simp only [hb, Bool.false_eq_true, if_false]
    exact ih hc.2 fun c hcl => hl c (mem_cons_of_mem _ hcl)

theorem Chain.seek_found (hc : Chain link h (l1 ++ a :: l2)) (hl : ∀ b ∈ l1, p b = false)
    (ha : p a = true) (hn : l1.length < n) :
    seek link p n h = some (some (lastHandle h l1, a)) := by
  obtain ⟨k, rfl⟩ : ∃ k, n = l1.length + (k + 1) := ⟨n - l1.length - 1, by omega⟩
  rw [hc.seek_append hl, seek, (chain_append.1 hc).2.1]
  simp only [ha, if_true]

theorem Chain.seek_none (hc : Chain link h l) (hl : ∀ b ∈ l, p b = false) (hn : l.length < n) :
    seek link p n h = some none := by
  obtain ⟨k, rfl⟩ : ∃ k, n = l.length + (k + 1) := ⟨n - l.length - 1, by omega⟩
  have hend : Chain link h (l ++ []) := by rwa [append_nil]
  rw [hend.seek_append hl, seek, (chain_append.1 hend).2]

end Seek

/-! ## Insertion and removal -/

/-- A new entry, its own link null, is put where the last link was. -/
theorem Chain.concat (hc : Chain link h l) (hnd : (h :: l.map some).Nodup)
    (ha : some a ∉ h :: l.map some) :
    Chain (update (update link (some a) none) (lastHandle h l) (some a)) h (l ++ [a]) := by
  have hlast : some a ≠ lastHandle h l := fun he => ha (he ▸ lastHandle_mem)
  have hsegment : Segment (update link (some a) none) h l :=
    (chain_iff_segment.1 hc).1.congr fun k hk => update_of_ne (ne_of_mem_of_not_mem hk ha) _ _
  refine chain_append.2 ⟨hsegment.update_last hnd _, update_self _ _ _, ?_⟩
  exact (update_of_ne hlast _ _).trans (update_self _ _ _)

/-- The link that leads to an entry is led past it. -/
theorem Chain.remove (hc : Chain link h (l1 ++ a :: l2))
    (hnd : (h :: (l1 ++ a :: l2).map some).Nodup) :
    Chain (update link (lastHandle h l1) (link (some a))) h (l1 ++ l2) := by
  obtain ⟨hsegment, -, hrest⟩ := chain_append.1 hc
  rw [map_append, ← cons_append] at hnd
  obtain ⟨hnd1, hnd2, hdisj⟩ := nodup_append.1 hnd
  refine chain_append.2 ⟨hsegment.update_last hnd1 _, ?_⟩
  cases l2 with
  | nil => exact (update_self _ _ _).trans hrest
  | cons b l2 =>
    refine ⟨(update_self _ _ _).trans hrest.1, hrest.2.congr fun k hk => ?_⟩
    -- the links after the entry are other ones than the link to it
    exact update_of_ne (fun he => hdisj _ (he ▸ lastHandle_mem) k
      (mem_cons_of_mem _ hk) rfl) _ _

/-- The last handle after a removal: that of the removed entry is replaced by the handle that led to
it. -/
theorem lastHandle_remove :
    lastHandle h (l1 ++ l2) = if l2 = [] then lastHandle h l1 else lastHandle h
    (l1 ++ a :: l2) := by
  rw [lastHandle_append]
  split
  · next hnil => rw [hnil]; rfl
  · rw [lastHandle_append]
    cases l2 with
    | nil => contradiction
    | cons b l2 => rfl

end CharmRuntime.Lib.HandleList
