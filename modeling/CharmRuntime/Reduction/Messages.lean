import CharmRuntime.Reduction.Reducers
import Mathlib.Data.List.GetD

/-!
# Combining reduction messages

`CkReductionMgr::reduceMessages`, and what it makes of the contributions to one reduction. A
reduction is a tree: `reduceMessages` is applied to contributions, to placeholders of processors
that had nothing to give and to messages that it made itself, in any grouping (`Reduced`). The data
of the result is the fold of the contributions, element by element, except that one contribution to
a logical reducer of `int` is passed on as it is (`reduceMessages_data`).
-/

set_option autoImplicit false

namespace CharmRuntime.Reduction

open Lib List

variable {w : Nat} {Cb : Type}

/-! ## Messages -/

/-- The reducers a message can name. `set`, `tuple` and the reducers of the user are left out. -/
inductive ReducerType (w : Nat)
  | invalid
  | nop
  | simple (R : Reducer w)

/-- Whether the reducer is `nop`. -/
def ReducerType.isNop : ReducerType w → Bool
  | .nop => true
  | _ => false

/-- `CkReductionMsg`. `sourceFlag` is 0 in a placeholder, -1 in a contribution, and the number of
contributions in a message that was made of them; there are fewer than `2 ^ 31`, which an `int`
holds. A `userFlag` of -1 is `none`, as is an invalid callback. -/
structure CkReductionMsg (w : Nat) (Cb : Type) where
  sourceFlag : Int
  gcount : Int
  reducer : ReducerType w
  userFlag : Option Nat
  callback : Option Cb
  data : List (BitVec w)

/-- `nSources`. -/
def CkReductionMsg.nSources (m : CkReductionMsg w Cb) : Int := m.sourceFlag.natAbs

/-- `buildNew` without a message to reuse. -/
def CkReductionMsg.buildNew (data : List (BitVec w)) : CkReductionMsg w Cb :=
  ⟨-2 ^ 31, 0, .invalid, none, none, data⟩

/-- `buildNew` over the memory of a message, whose callback stays. -/
def CkReductionMsg.rebuild (m : CkReductionMsg w Cb) (data : List (BitVec w)) :
    CkReductionMsg w Cb :=
  ⟨-2 ^ 31, 0, .invalid, none, m.callback, data⟩

/-! ## `reduceMessages` -/

/-- The loop of `SIMPLE_REDUCTION` over the elements of one message. There is no result when it
would read past the end of the message. -/
def combineInto (R : Reducer w) (ret value : List (BitVec w)) : Option (List (BitVec w)) :=
  if ret.length ≤ value.length then some (zipWith R.loop ret value) else none

/-- `reducerTable()[r].fn`. The function for `invalid` aborts. -/
def reducerFn : ReducerType w → List (CkReductionMsg w Cb) → Option (CkReductionMsg w Cb)
  | .invalid, _ => none
  | .nop, msgs => msgs.head?.map (·.rebuild [])
  | .simple _, [] => none
  | .simple R, msg :: msgs =>
    (msgs.foldlM (fun ret m => combineInto R ret m.data) msg.data).map msg.rebuild

/-- The variables of `reduceMessages` that its first loop sets. -/
structure Collected (w : Nat) (Cb : Type) where
  msgArr : List (CkReductionMsg w Cb)
  r : ReducerType w
  gcount : Int
  nSources : Int
  userFlag : Option Nat
  callback : Option Cb

/-- Their values before the loop. -/
def Collected.start : Collected w Cb := ⟨[], .invalid, 0, 0, none, none⟩

section ReduceMessages

/- The comparison of callbacks that `CMK_ERROR_CHECKING` turns on. It is constantly false without.
-/
variable (mismatched : Option Cb → Option Cb → Bool)

/-- A round of the first loop. -/
def Collected.add (c : Collected w Cb) (m : CkReductionMsg w Cb) : Option (Collected w Cb) :=
  if m.sourceFlag = 0 then some { c with gcount := c.gcount + m.gcount }
  else if c.msgArr.isEmpty || !m.reducer.isNop then
    if m.callback.isSome && !c.msgArr.isEmpty && mismatched c.callback m.callback then none
    else
      some {
        msgArr := c.msgArr ++ [m]
        r := m.reducer
        gcount := c.gcount + m.gcount
        nSources := c.nSources + m.nSources
        userFlag := m.userFlag.or c.userFlag
        callback := m.callback.or c.callback }
  else if mismatched c.callback m.callback then none
  else some { c with gcount := c.gcount + m.gcount, nSources := c.nSources + m.nSources }

/-- The messages that are given to the reducer: one that stands for `nop` is replaced by the
last. -/
def withoutNop : List (CkReductionMsg w Cb) → List (CkReductionMsg w Cb)
  | [] => []
  | first :: rest =>
    if first.reducer.isNop then rest.getLast?.toList ++ rest.dropLast else first :: rest

/-- The message that is made of the collected ones. -/
def Collected.combine (c : Collected w Cb) : Option (CkReductionMsg w Cb) :=
  match c.r, c.msgArr with
  | .invalid, _ | _, [] => some (.buildNew [])
  | r, [m] => some { m with reducer := r }
  | r, msgArr => (reducerFn r (withoutNop msgArr)).map ({ · with reducer := r })

/-- `reduceMessages`. -/
def reduceMessages (msgs : List (CkReductionMsg w Cb)) : Option (CkReductionMsg w Cb) :=
  (msgs.foldlM (Collected.add mismatched) .start).bind fun c =>
    c.combine.map fun ret => { ret with
      gcount := c.gcount
      userFlag := c.userFlag
      callback := c.callback
      sourceFlag := c.nSources }

end ReduceMessages

/-! ## Reductions -/

/-- The contributions that have an element `i`, each reduced to it. -/
def column (cs : List (List (BitVec w))) (i : Nat) : List (BitVec w) := cs.map (·.getD i 0#w)

/-- The fold of contributions of `n` elements, element by element. -/
def elementwise (R : Reducer w) (n : Nat) (cs : List (List (BitVec w))) : List (BitVec w) :=
  (List.range n).map fun i => R.fold (column cs i)

variable (mismatched : Option Cb → Option Cb → Bool) (R : Reducer w) (n : Nat)
  (agreed : Option Cb → Prop) in
/-- The messages of a reduction with reducer `R` over arrays of `n` elements, and the contributions
that each stands for. The callbacks of the contributions are `agreed` ones. -/
inductive Reduced : CkReductionMsg w Cb → List (List (BitVec w)) → Prop
  | contribution {m : CkReductionMsg w Cb} (hflag : m.sourceFlag = -1)
      (hreducer : m.reducer = .simple R) (hcallback : agreed m.callback)
        (hlength : m.data.length = n) :
      Reduced m [m.data]
  | nop {m : CkReductionMsg w Cb} (hflag : m.sourceFlag = -1) (hreducer : m.reducer = .nop)
      (hcallback : agreed m.callback) : Reduced m []
  | placeholder {m : CkReductionMsg w Cb} (hflag : m.sourceFlag = 0) :
      Reduced m []
  | reduce {l : List (CkReductionMsg w Cb × List (List (BitVec w)))} {m : CkReductionMsg w Cb}
      (hl : ∀ p ∈ l, Reduced p.1 p.2)
      (hm : reduceMessages mismatched (l.map Prod.fst) = some m) :
      Reduced m (l.map Prod.snd).flatten

/-! ## The loop of a reducer -/

section Columns

variable {R : Reducer w} {n : Nat} {cs cs' : List (List (BitVec w))}
  {data ret val : List (BitVec w)}

variable (R n cs data) in
/-- The data is what combining the contributions gives, in each element. -/
structure Columns : Prop where
  lengths : ∀ c ∈ cs, c.length = n
  length : data.length = n
  each : ∀ i < n, Partial R.fold (column cs i) (data.getD i 0#w)

theorem Columns.single (h : data.length = n) : Columns R n [data] data where
  lengths c hc := by rw [mem_singleton.1 hc, h]
  length := h
  each i _ := Partial.single _

theorem Columns.perm (h : Columns R n cs data) (hperm : cs.Perm cs') : Columns R n cs' data where
  lengths c hc := h.lengths c (hperm.mem_iff.2 hc)
  length := h.length
  each i hi := (h.each i hi).perm R.folds (hperm.map _)

/-- Reading one more message, as long as the others, combines the contributions of both. -/
theorem Columns.read (h : Columns R n cs ret) (h' : Columns R n cs' val) :
    ∃ data, combineInto R ret val = some data ∧ Columns R n (cs ++ cs') data := by
  have hle : ret.length ≤ val.length := by rw [h.length, h'.length]
  refine ⟨_, if_pos hle, fun c hc => ?_, ?_, fun i hi => ?_⟩
  · exact (mem_append.1 hc).elim (h.lengths c) (h'.lengths c)
  · rw [length_zipWith, h.length, h'.length, Nat.min_self]
  · have hret : i < ret.length := h.length ▸ hi
    have hval : i < val.length := h'.length ▸ hi
    have hjoin := (h.each i hi).join R.folds (h'.each i hi)
    rw [getD_eq_getElem _ _ hret, getD_eq_getElem _ _ hval] at hjoin
    rw [getD_eq_getElem _ _ (by rw [length_zipWith]; omega), getElem_zipWith, column,
      map_append]
    exact hjoin

theorem eq_elementwise_iff (h : data.length = n) :
    data = elementwise R n cs ↔ ∀ i < n, data.getD i 0#w = R.fold (column cs i) := by
  constructor
  · intro hdata i hi
    rw [hdata, getD_eq_getElem _ _ (by simpa [elementwise] using hi)]
    simp [elementwise]
  · intro heach
    refine ext_getElem (by simp [elementwise, h]) fun i hi _ => ?_
    rw [← getD_eq_getElem data 0#w hi, heach i (h ▸ hi)]
    simp [elementwise]

variable (h : Columns R n cs data) (hne : cs ≠ [])

include h hne

/-- A contribution that was combined with no other is passed on as it is. -/
theorem Columns.eq_single (hlen : ¬2 ≤ cs.length) : cs = [data] := by
  have hpos := length_pos_of_ne_nil hne
  obtain ⟨c, rfl⟩ := length_eq_one_iff.1 (show cs.length = 1 by omega)
  have hc : c.length = n := h.lengths c (mem_singleton_self c)
  congr 1
  refine ext_getElem (hc.trans h.length.symm) fun i hi hi' => ?_
  rw [← getD_eq_getElem c 0#w hi, ← getD_eq_getElem data 0#w hi']
  rcases h.each i (hc ▸ hi) with hone | ⟨htwo, -⟩
  · exact singleton_inj.1 hone
  · exact absurd htwo (by simp [column])

/-- The data is the fold of the contributions, unless there is only one and it is not its own
fold. -/
theorem Columns.data_eq_iff : data = elementwise R n cs ↔
      (R.IsLogicalInt → 2 ≤ cs.length ∨ ∀ c ∈ cs, ∀ x ∈ c, x = 0#w ∨ x = 1#w) := by
  rw [eq_elementwise_iff h.length]
  by_cases hlen : 2 ≤ cs.length
  · refine iff_of_true (fun i hi => (h.each i hi).eq_fold_iff.2 (.inl ?_)) fun _ => .inl hlen
    rwa [column, List.length_map]
  · obtain rfl := h.eq_single hne hlen
    have heach : ∀ i, data.getD i 0#w = R.fold (column [data] i) ↔
        (R.IsLogicalInt → data.getD i 0#w = 0#w ∨ data.getD i 0#w = 1#w) := fun i => by
      rw [← R.fold_single_iff, eq_comm]
      rfl
    constructor
    · intro hall hlog
      refine .inr fun c hc x hx => ?_
      rw [mem_singleton.1 hc] at hx
      obtain ⟨i, hi, rfl⟩ := getElem_of_mem hx
      rw [← getD_eq_getElem data 0#w hi]
      exact (heach i).1 (hall i (h.length ▸ hi)) hlog
    · intro hcond i hi
      refine (heach i).2 fun hlog => ?_
      rw [getD_eq_getElem data 0#w (h.length.symm ▸ hi)]
      exact (hcond hlog).resolve_left hlen data (mem_singleton_self data) _ (getElem_mem _)

end Columns

/-! ## The messages of a reduction -/

section Reductions

variable {mismatched : Option Cb → Option Cb → Bool} {R : Reducer w} {n : Nat}
  {agreed : Option Cb → Prop} {m : CkReductionMsg w Cb} {c : Collected w Cb}
  {cs cs' : List (List (BitVec w))} {l : List (CkReductionMsg w Cb × List (List (BitVec w)))}

variable (R n agreed) in
/-- What is known of a message of a reduction: it is a placeholder, it stands for `nop`
contributions only, or it carries data. -/
inductive Sound : CkReductionMsg w Cb → List (List (BitVec w)) → Prop
  | placeholder {m : CkReductionMsg w Cb} (hflag : m.sourceFlag = 0) : Sound m []
  | nop {m : CkReductionMsg w Cb} (hflag : m.sourceFlag ≠ 0) (hcallback : agreed m.callback)
      (hreducer : m.reducer = .nop) : Sound m []
  | real {m : CkReductionMsg w Cb} {cs : List (List (BitVec w))} (hflag : m.sourceFlag ≠ 0)
      (hcallback : agreed m.callback) (hreducer : m.reducer = .simple R)
      (hdata : Columns R n cs m.data) : Sound m cs

/-- A message that carries the data of its contributions. -/
def Real (R : Reducer w) (n : Nat) (p : CkReductionMsg w Cb × List (List (BitVec w))) : Prop :=
  p.1.reducer = .simple R ∧ Columns R n p.2 p.1.data

variable (R n agreed) in
/-- The state of the first loop, with the contributions of the messages read so far. -/
inductive Gathered : Collected w Cb → List (List (BitVec w)) → Prop
  | nothing {c : Collected w Cb} (harr : c.msgArr = []) (hr : c.r = .invalid)
      (hcount : c.nSources = 0)
      (hcallback : c.callback = none) : Gathered c []
  | nop {c : Collected w Cb} {m : CkReductionMsg w Cb} (harr : c.msgArr = [m])
      (hm : m.reducer = .nop) (hr : c.r = .nop) (hcount : 0 < c.nSources)
      (hcallback : agreed c.callback) : Gathered c []
  | real {c : Collected w Cb} (nops : List (CkReductionMsg w Cb))
      (reals : List (CkReductionMsg w Cb × List (List (BitVec w))))
      (harr : c.msgArr = nops ++ reals.map Prod.fst) (hlen : nops.length ≤ 1)
      (hnops : ∀ m ∈ nops, m.reducer = .nop) (hne : reals ≠ []) (hreals : ∀ p ∈ reals, Real R n p)
      (hr : c.r = .simple R) (hcount : 0 < c.nSources) (hcallback : agreed c.callback) :
      Gathered c (reals.map Prod.snd).flatten

theorem nSources_pos (h : m.sourceFlag ≠ 0) : 0 < m.nSources := by
  unfold CkReductionMsg.nSources
  omega

section Gather

variable (h : Gathered R n agreed c cs) {c' : Collected w Cb}

include h

theorem Gathered.nSources_nonneg : 0 ≤ c.nSources := by
  cases h with
  | nothing _ _ hcount _ => exact hcount.ge
  | nop _ _ _ hcount | real _ _ _ _ _ _ _ _ hcount => exact hcount.le

/-- The callback that is kept comes from a message as soon as one is accepted. -/
theorem Gathered.or_agreed (hm : agreed m.callback) : agreed (m.callback.or c.callback) := by
  cases hcb : m.callback with
  | some cb => rwa [Option.some_or, ← hcb]
  | none =>
    rw [hcb] at hm
    cases h with
    | nothing _ _ _ hcb => rwa [hcb]
    | nop _ _ _ _ hcb | real _ _ _ _ _ _ _ _ _ hcb => exact hcb

theorem Gathered.agreed_of_ne (hne : c.msgArr ≠ []) : agreed c.callback := by
  cases h with
  | nothing harr _ _ _ => exact absurd harr hne
  | nop _ _ _ _ hcb | real _ _ _ _ _ _ _ _ _ hcb => exact hcb

/-- A message with data is appended. -/
theorem Gathered.accept (hm : Real R n (m, cs')) (harr : c'.msgArr = c.msgArr ++ [m])
    (hr : c'.r = m.reducer) (hcount : 0 < c'.nSources) (hcb : agreed c'.callback) :
    Gathered R n agreed c' (cs ++ cs') := by
  have hr' : c'.r = .simple R := hr.trans hm.1
  cases h with
  | nothing harr0 _ _ _ =>
    have := Gathered.real [] [(m, cs')] (by rw [harr, harr0]; rfl) (Nat.zero_le 1)
      (by simp) (by simp) (by simpa using hm) hr' hcount hcb
    simpa using this
  | @nop m0 harr0 hm0 _ _ _ =>
    have := Gathered.real [m0] [(m, cs')] (by rw [harr, harr0]; rfl) le_rfl
      (by simpa using hm0) (by simp) (by simpa using hm) hr' hcount hcb
    simpa using this
  | real nops reals harr0 hlen hnops hne hreals _ _ _ =>
    have := Gathered.real nops (reals ++ [(m, cs')])
      (by rw [harr, harr0, map_append, append_assoc]; rfl) hlen hnops (by simp)
      (forall_mem_append.2 ⟨hreals, forall_mem_singleton.2 hm⟩) hr' hcount hcb
    simpa using this

/-- A placeholder, or a `nop` after the first message, changes the counts only. -/
theorem Gathered.keep (harr : c'.msgArr = c.msgArr) (hr : c'.r = c.r)
    (hcb : c'.callback = c.callback) (hcount : c.nSources ≤ c'.nSources)
    (hnil : c.msgArr = [] → c'.nSources = c.nSources) : Gathered R n agreed c' cs := by
  cases h with
  | nothing harr0 hr0 hcount0 hcallback0 =>
    exact .nothing (harr.trans harr0) (hr.trans hr0) ((hnil harr0).trans hcount0)
      (hcb.trans hcallback0)
  | nop harr0 hm hr0 hcount0 hcallback0 =>
    exact .nop (harr.trans harr0) hm (hr.trans hr0) (hcount0.trans_le hcount) (hcb ▸ hcallback0)
  | real nops reals harr0 hlen hnops hne hreals hr0 hcount0 hcallback0 =>
    exact .real nops reals (harr.trans harr0) hlen hnops hne hreals (hr.trans hr0)
      (hcount0.trans_le hcount) (hcb ▸ hcallback0)

variable (hagreed : ∀ a b, agreed a → agreed b → mismatched a b = false)

include hagreed

/-- A round of the first loop does not abort, and adds the contributions of the message. -/
theorem Gathered.add (hm : Sound R n agreed m cs') :
    ∃ c', c.add mismatched m = some c' ∧ Gathered R n agreed c' (cs ++ cs') := by
  cases hm with
  | placeholder hflag =>
    refine ⟨_, by rw [Collected.add, if_pos hflag], ?_⟩
    rw [append_nil]
    exact h.keep rfl rfl rfl le_rfl fun _ => rfl
  | nop hflag hcb hred =>
    have hpos := nSources_pos hflag
    have hnonneg := h.nSources_nonneg
    rw [append_nil, Collected.add, if_neg hflag]
    by_cases hnil : c.msgArr = []
    · -- The first message is accepted although its reducer is `nop`.
      have hcs : cs = [] := by
        cases h with
        | nothing | nop => rfl
        | real nops reals harr _ _ hne _ _ _ _ => simp [hnil, hne] at harr
      refine ⟨_, by rw [if_pos (by simp [hnil]), if_neg (by simp [hnil])], ?_⟩
      rw [hcs]
      exact .nop (by rw [hnil]; rfl) hred hred (by simpa using by omega) (h.or_agreed hcb)
    · refine ⟨_, by rw [if_neg (by simp [hnil, hred, ReducerType.isNop]),
        if_neg (by simp [hagreed _ _ (h.agreed_of_ne hnil) hcb])], ?_⟩
      exact h.keep rfl rfl rfl (Int.le_add_of_nonneg_right hpos.le) hnil.elim
  | real hflag hcb hred hdata =>
    have hpos := nSources_pos hflag
    have hnonneg := h.nSources_nonneg
    have hmatch :
        (m.callback.isSome && !c.msgArr.isEmpty && mismatched c.callback m.callback) ≠ true := by
      by_cases hnil : c.msgArr = []
      · simp [hnil]
      · simp [hagreed _ _ (h.agreed_of_ne hnil) hcb]
    refine ⟨_, by rw [Collected.add, if_neg hflag, if_pos (by simp [hred, ReducerType.isNop]),
      if_neg hmatch], ?_⟩
    exact h.accept ⟨hred, hdata⟩ rfl rfl (by simpa using by omega) (h.or_agreed hcb)

/-- The first loop. -/
theorem Gathered.addAll (hl : ∀ p ∈ l, Sound R n agreed p.1 p.2) :
    ∃ c', (l.map Prod.fst).foldlM (Collected.add mismatched) c = some c' ∧
      Gathered R n agreed c' (cs ++ (l.map Prod.snd).flatten) := by
  induction l generalizing c cs with
  | nil => exact ⟨c, rfl, by simpa using h⟩
  | cons p l ih =>
    obtain ⟨c1, hadd, h1⟩ := h.add hagreed (hl p mem_cons_self)
    obtain ⟨c', hfold, h'⟩ := ih h1 fun q hq => hl q (mem_cons_of_mem p hq)
    refine ⟨c', ?_, by simpa using h'⟩
    rw [map_cons, foldlM_cons, hadd]
    exact hfold

end Gather

/-- The loop of a reducer over its messages. -/
theorem Columns.foldAll {ret : List (BitVec w)} (h : Columns R n cs ret)
    (hl : ∀ p ∈ l, Columns R n p.2 p.1.data) :
    ∃ data, (l.map Prod.fst).foldlM (fun ret m => combineInto R ret m.data) ret = some data ∧
      Columns R n (cs ++ (l.map Prod.snd).flatten) data := by
  induction l generalizing ret cs with
  | nil => exact ⟨ret, rfl, by simpa using h⟩
  | cons p l ih =>
    obtain ⟨ret1, hcombine, h1⟩ := h.read (hl p mem_cons_self)
    obtain ⟨data, hfold, h'⟩ := ih h1 fun q hq => hl q (mem_cons_of_mem p hq)
    refine ⟨data, ?_, by simpa using h'⟩
    rw [map_cons, foldlM_cons, hcombine]
    exact hfold

theorem reducerFn_real (hne : l ≠ []) (hl : ∀ p ∈ l, Real R n p) :
    ∃ m, reducerFn (.simple R) (l.map Prod.fst) = some m ∧
      Columns R n (l.map Prod.snd).flatten m.data := by
  obtain ⟨p, l, rfl⟩ := exists_cons_of_ne_nil hne
  obtain ⟨data, hfold, h⟩ := (hl p mem_cons_self).2.foldAll fun q hq =>
    (hl q (mem_cons_of_mem p hq)).2
  refine ⟨p.1.rebuild data, ?_, h⟩
  rw [map_cons, reducerFn, hfold]
  rfl

theorem withoutNop_eq_self (hl : ∀ p ∈ l, Real R n p) :
    withoutNop (l.map Prod.fst) = l.map Prod.fst := by
  cases l with
  | nil => rfl
  | cons p l =>
    rw [map_cons, withoutNop, if_neg (by simp [(hl p mem_cons_self).1, ReducerType.isNop])]

/-- The last message takes the place of the one for `nop`; the others stay. -/
theorem withoutNop_cons (hm : m.reducer = .nop) (hne : l ≠ []) :
    ∃ l' : List (CkReductionMsg w Cb × List (List (BitVec w))),
      withoutNop (m :: l.map Prod.fst) = l'.map Prod.fst ∧ l'.Perm l := by
  obtain ⟨before, p, rfl⟩ := (eq_nil_or_concat' l).resolve_left hne
  refine ⟨p :: before, ?_, (perm_append_singleton p before).symm⟩
  rw [withoutNop, if_pos (by rw [hm]; rfl)]
  simp

/-- The reducer is given the messages with data, in some order. -/
theorem withoutNop_perm {nops : List (CkReductionMsg w Cb)} (hlen : nops.length ≤ 1)
    (hnops : ∀ m ∈ nops, m.reducer = .nop) (hne : l ≠ []) (hl : ∀ p ∈ l, Real R n p) :
    ∃ l' : List (CkReductionMsg w Cb × List (List (BitVec w))),
      withoutNop (nops ++ l.map Prod.fst) = l'.map Prod.fst ∧ l'.Perm l := by
  match nops, hlen with
  | [], _ => exact ⟨l, withoutNop_eq_self hl, Perm.refl l⟩
  | [m], _ => exact withoutNop_cons (hnops m mem_cons_self) hne

/-- The collected messages are combined into one that stands for their contributions. -/
theorem Gathered.combine (h : Gathered R n agreed c cs) :
    ∃ ret, c.combine = some ret ∧ Sound R n agreed { ret with
      gcount := c.gcount
      userFlag := c.userFlag
      callback := c.callback
      sourceFlag := c.nSources } cs := by
  cases h with
  | nothing harr hr hcount _ =>
    refine ⟨.buildNew [], by rw [Collected.combine, hr], .placeholder hcount⟩
  | @nop m harr hm hr hcount hcb =>
    refine ⟨{ m with reducer := .nop }, by rw [Collected.combine, hr, harr], ?_⟩
    exact .nop hcount.ne' hcb rfl
  | real nops reals harr hlen hnops hne hreals hr hcount hcb =>
    by_cases hone : ∃ m, c.msgArr = [m]
    · -- One message, which is not for `nop`, is passed on.
      obtain ⟨m, hm⟩ := hone
      obtain ⟨p, reals, rfl⟩ := exists_cons_of_ne_nil hne
      obtain ⟨rfl, rfl, rfl⟩ : nops = [] ∧ reals = [] ∧ m = p.1 := by
        rw [hm] at harr
        cases nops with
        | nil =>
          obtain ⟨hhead, htail⟩ := List.cons.inj harr
          exact ⟨rfl, map_eq_nil_iff.1 htail.symm, hhead⟩
        | cons m' nops => simp at harr
      refine ⟨{ p.1 with reducer := .simple R }, by rw [Collected.combine, hr, hm], ?_⟩
      exact .real hcount.ne' hcb rfl (by simpa using (hreals p mem_cons_self).2)
    · obtain ⟨l', hwithout, hperm⟩ := withoutNop_perm hlen hnops hne hreals
      obtain ⟨ret, hret, hdata⟩ :=
        reducerFn_real (l := l') (fun hnil => hne (hnil ▸ hperm).nil_eq.symm)
        fun p hp => hreals p (hperm.mem_iff.1 hp)
      refine ⟨{ ret with reducer := .simple R }, ?_, ?_⟩
      · have hnil : c.msgArr ≠ [] := by simp [harr, hne]
        have hcombine : c.combine = (reducerFn c.r (withoutNop c.msgArr)).map
            ({ · with reducer := c.r }) := by
          rw [Collected.combine, hr]
          match hc : c.msgArr, hnil, hone with
          | [m], _, hone => exact absurd ⟨m, rfl⟩ hone
          | m :: m' :: ms, _, _ => rfl
        rw [hcombine, hr, harr, hwithout, hret]
        rfl
      · exact .real hcount.ne' hcb rfl (hdata.perm (hperm.map Prod.snd).flatten)

section

variable (hagreed : ∀ a b, agreed a → agreed b → mismatched a b = false)

include hagreed

/-- `reduceMessages` does not abort on messages of a reduction, and makes another one. -/
theorem Sound.reduceMessages
    (hl : ∀ p ∈ l, Sound R n agreed p.1 p.2) : ∃ m,
    reduceMessages mismatched (l.map Prod.fst) = some m ∧
      Sound R n agreed m (l.map Prod.snd).flatten := by
  have hstart : Gathered R n agreed (.start : Collected w Cb) [] := .nothing rfl rfl rfl rfl
  obtain ⟨c, hadd, hc⟩ := hstart.addAll hagreed hl
  obtain ⟨ret, hcombine, hsound⟩ := hc.combine
  refine ⟨_, ?_, hsound⟩
  rw [Reduction.reduceMessages, hadd, Option.bind_some, hcombine]
  rfl

theorem Reduced.sound (h : Reduced mismatched R n agreed m cs) : Sound R n agreed m cs := by
  induction h with
  | contribution hflag hred hcb hlen =>
    exact .real (by rw [hflag]; decide) hcb hred (Columns.single hlen)
  | nop hflag hred hcb => exact .nop (by rw [hflag]; decide) hcb hred
  | placeholder hflag => exact .placeholder hflag
  | reduce _ hm ih =>
    obtain ⟨m', hm', hsound⟩ := Sound.reduceMessages hagreed ih
    rw [hm] at hm'
    exact Option.some.inj hm' ▸ hsound

end

theorem Sound.columns (h : Sound R n agreed m cs) (hne : cs ≠ []) : Columns R n cs m.data := by
  cases h with
  | placeholder | nop => exact absurd rfl hne
  | real _ _ _ hdata => exact hdata

/-- The data of a finished reduction. Whatever the tree, the order and the partial reductions were,
`reduceMessages` gives a message. Its data is the fold of the contributions that are not `nop`,
element by element, unless there is only one, its reducer is a logical one of `int`, and it has a
number other than 0 and 1. -/
theorem reduceMessages_data_iff (hagreed : ∀ a b, agreed a → agreed b → mismatched a b = false)
    (hl : ∀ p ∈ l, Reduced mismatched R n agreed p.1 p.2) (hne : (l.map Prod.snd).flatten ≠ []) :
    ∃ m, reduceMessages mismatched (l.map Prod.fst) = some m ∧
      (m.data = elementwise R n (l.map Prod.snd).flatten ↔
        (R.IsLogicalInt → 2 ≤ (l.map Prod.snd).flatten.length ∨
          ∀ c ∈ (l.map Prod.snd).flatten, ∀ x ∈ c, x = 0#w ∨ x = 1#w)) := by
  obtain ⟨m, hm, hsound⟩ := Sound.reduceMessages hagreed fun p hp => (hl p hp).sound hagreed
  exact ⟨m, hm, (hsound.columns hne).data_eq_iff hne⟩

end Reductions

/-! ## One contribution to a logical reducer -/

/-- A contribution to `logical_and_int`. -/
def contributionOf (data : List (BitVec 32)) : CkReductionMsg 32 Unit :=
  ⟨-1, 0, .simple .logicalAnd, none, none, data⟩

/-- One element contributes 5 to `logical_and_int`. The result is 5, and not 1. -/
theorem single_contribution_kept :
    (reduceMessages (fun _ _ => false) [contributionOf [5#32]]).map (·.data) = some [5#32] ∧
      elementwise .logicalAnd 1 [[5#32]] = [1#32] := by
  constructor
  · rfl
  · simp [elementwise, column, Reducer.fold, conjunction]

/-- Two elements contribute 5 and 3, and a processor without elements sends a placeholder. -/
theorem reduceMessages_data_iff_pair : ∃ m, reduceMessages (fun _ _ => false)
        [contributionOf [5#32], ⟨0, 0, .invalid, none, none, []⟩, contributionOf [3#32]] = some m ∧
      m.data = elementwise .logicalAnd 1 [[5#32], [3#32]] := by
  have hl : ∀ p ∈ [(contributionOf [5#32], [[5#32]]), (⟨0, 0, .invalid, none, none, []⟩, []),
      (contributionOf [3#32], [[3#32]])],
      Reduced (fun _ _ => false) .logicalAnd 1 (fun _ => True) p.1 p.2 := by
    simp only [forall_mem_cons, not_mem_nil, false_imp_iff, implies_true, and_true]
    exact ⟨.contribution rfl rfl trivial rfl, .placeholder rfl, .contribution rfl rfl trivial rfl⟩
  obtain ⟨m, hm, hiff⟩ := reduceMessages_data_iff (fun _ _ _ _ => rfl) hl (cons_ne_nil _ _)
  exact ⟨m, hm, hiff.2 fun _ => .inl le_rfl⟩

end CharmRuntime.Reduction
