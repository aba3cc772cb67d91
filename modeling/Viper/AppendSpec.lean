import Viper.AppendLog

/-!
# What the list-append builder builds

The loop over all reads changes a graph and two dictionaries. Each iteration is
a list of actions on them that does not depend on their contents, so the loop is
one long run of actions. A completed run has stored exactly its actions, and a
run completes when no action contradicts another; both are then read as facts
about the log.
-/
namespace Viper

open Py Chains

namespace Append

section Run

variable {κ : Type} [LinearOrder κ]

inductive Act (κ : Type) where
  | edge (e : Edge)
  | reader (k : κ) (writer readTxn : Nat)
  | next (k : κ) (a b : Nat)
  | fresh (k : κ) (a : Nat)
  | raise (e : Err)

def act (st : KnownGraph κ) : Act κ → Except Err (KnownGraph κ)
  | .edge e => st.addEdge e.src e.dst e.type
  | .reader k writer readTxn => .ok (st.addReader k writer readTxn)
  | .next k a b => st.addWwpairs k a b
  | .fresh k a => do
    require (st.wwpairs.get? (k, a)).isNone ""
    .ok st
  | .raise e => .error e

def runActs (st : KnownGraph κ) (acts : List (Act κ)) : Except Err (KnownGraph κ) :=
  acts.foldlM act st

@[simp] theorem runActs_nil (st : KnownGraph κ) : runActs st [] = .ok st := rfl

@[simp] theorem runActs_singleton (st : KnownGraph κ) (x : Act κ) : runActs st [x] = act st x := by
  simp [runActs]

theorem runActs_append (st : KnownGraph κ) (acts acts' : List (Act κ)) :
    runActs st (acts ++ acts') = (runActs st acts >>= fun st => runActs st acts') :=
      List.foldlM_append

theorem runActs_cons (st : KnownGraph κ) (x : Act κ) (acts : List (Act κ)) :
    runActs st (x :: acts) = (act st x >>= fun st => runActs st acts) := List.foldlM_cons

theorem runActs_flatMap {α : Type} {f : KnownGraph κ → α → Except Err (KnownGraph κ)}
    {acts : α → List (Act κ)}
    {l : List α} (h : ∀ a ∈ l, ∀ st, f st a = runActs st (acts a)) (st : KnownGraph κ) :
    l.foldlM f st = runActs st (l.flatMap acts) :=
  foldlM_eq_flatMap (fun _ => True) (fun a ha st _ => h a ha st)
    (fun _ _ _ _ _ _ _ _ => trivial) trivial

def edgeActs (srcs dsts : List Nat) (type : EdgeType) : List (Act κ) :=
  srcs.flatMap fun src => dsts.map fun dst => .edge ⟨src, dst, type⟩

theorem addEdges_eq (st : KnownGraph κ) (srcs dsts : List Nat) (type : EdgeType) :
    st.addEdges srcs dsts type = runActs st (edgeActs srcs dsts type) := by
  refine runActs_flatMap (fun src _ st => ?_) st
  rw [List.map_eq_flatMap]
  refine runActs_flatMap (fun dst _ st => ?_) st
  rw [runActs_singleton, act]

/-- The edges among the actions. -/
def edgesOf (acts : List (Act κ)) : Script :=
  acts.filterMap (fun
    | .edge e => some (.ok (.edge e))
    | _ => none)

omit [LinearOrder κ] in
theorem mem_edgesOf (acts : List (Act κ)) (x : Except Err Cmd) :
    x ∈ edgesOf acts ↔ ∃ e, x = .ok (.edge e) ∧ .edge e ∈ acts := by
  simp only [edgesOf, List.mem_filterMap]
  constructor
  · rintro ⟨y, hy, hx⟩
    cases y with
    | edge e => exact ⟨e, (Option.some.inj hx).symm, hy⟩
    | reader _ _ _ | next _ _ _ | fresh _ _ | raise _ => cases hx
  · rintro ⟨e, rfl, he⟩
    exact ⟨_, he, rfl⟩

/-- What completed actions have stored. -/
structure Ran (acts : List (Act κ)) (st st' : KnownGraph κ) : Prop where
  played : play st.g (edgesOf acts) = .ok st'.g
  readers : ∀ k w r, r ∈ st'.readfrom.getD (k, w) [] ↔
    r ∈ st.readfrom.getD (k, w) [] ∨ .reader k w r ∈ acts
  next : ∀ k a b, st'.wwpairs.get? (k, a) = some b ↔
    st.wwpairs.get? (k, a) = some b ∨ .next k a b ∈ acts
  raise : ∀ e, .raise e ∉ acts

theorem addWwpairs_eq_ok {st st' : KnownGraph κ} {k : κ} {a b : Nat} :
    st.addWwpairs k a b = .ok st' ↔
      (∀ b', st.wwpairs.get? (k, a) = some b' → b' = b) ∧
      st' = { st with wwpairs := st.wwpairs.set (k, a) b } := by
  rw [KnownGraph.addWwpairs]
  cases hg : st.wwpairs.get? (k, a) with
  | none => simp [eq_comm]
  | some b' =>
    by_cases hb : b' = b
    · simp [hb, eq_comm]
    · simp [hb]

theorem ran_of_act {st st' : KnownGraph κ} {x : Act κ} (h : act st x = .ok st') :
    Ran [x] st st' := by
  cases x with
  | edge e =>
    rw [act, KnownGraph.addEdge, bind_eq_ok] at h
    obtain ⟨g, hg, he⟩ := h
    cases he
    exact ⟨by simpa [edgesOf] using hg, by simp, by simp, by simp⟩
  | reader k w r =>
    cases h
    refine ⟨rfl, fun k' w' r' => ?_, by simp [KnownGraph.addReader], by simp⟩
    refine (Dict.mem_addAll st.readfrom (k, w) (k', w') id [r] r').trans ?_
    simp [and_assoc]
  | next k a b =>
    obtain ⟨hb, rfl⟩ := addWwpairs_eq_ok.mp h
    refine ⟨rfl, by simp, fun k' a' b' => ?_, by simp⟩
    rw [Dict.get?_set]
    split
    · rename_i he
      cases he
      simp only [Option.some.injEq, List.mem_singleton, Act.next.injEq, true_and]
      exact ⟨fun he => .inr he.symm, fun h => h.elim (fun h => (hb b' h).symm) Eq.symm⟩
    · rename_i he
      simp only [List.mem_singleton, Act.next.injEq]
      refine ⟨Or.inl, ?_⟩
      rintro (h | ⟨rfl, rfl, _⟩)
      · exact h
      · exact absurd rfl he
  | fresh k a =>
    rw [act, bind_eq_ok] at h
    obtain ⟨_, _, he⟩ := h
    cases he
    exact ⟨rfl, by simp, by simp, by simp⟩
  | raise e => cases h

theorem ran_of_ok {st st' : KnownGraph κ} {acts : List (Act κ)} (h : runActs st acts = .ok st') :
    Ran acts st st' := by
  induction acts generalizing st with
  | nil =>
    cases h
    exact ⟨rfl, by simp, by simp, by simp⟩
  | cons x acts ih =>
    rw [runActs_cons, bind_eq_ok] at h
    obtain ⟨st₁, h₁, h₂⟩ := h
    have hx := ran_of_act h₁
    have hr := ih h₂
    refine ⟨?_, fun k w r => ?_, fun k a b => ?_, fun e he => ?_⟩
    · have happ : edgesOf (x :: acts) = edgesOf [x] ++ edgesOf acts :=
        List.filterMap_append (l := [x]) ..
      rw [happ, play_append, hx.played, ok_bind, hr.played]
    · rw [hr.readers, hx.readers, or_assoc, List.mem_singleton, List.mem_cons]
    · rw [hr.next, hx.next, or_assoc, List.mem_singleton, List.mem_cons]
    · rcases List.mem_cons.mp he with rfl | he
      · exact hx.raise e List.mem_cons_self
      · exact hr.raise e he

/-- An action that cannot fail where `next` holds all known successors. -/
def Act.Fits (n : Nat) (next : κ → Nat → Nat → Prop) : Act κ → Prop
  | .edge e => (Cmd.edge e).Valid n
  | .reader _ _ _ => True
  | .next k a b => next k a b
  | .fresh k a => ∀ b, ¬ next k a b
  | .raise _ => False

theorem runActs_total {n : Nat} {next : κ → Nat → Nat → Prop}
    (hu : ∀ k a b b', next k a b → next k a b' → b = b')
    (acts : List (Act κ)) (st : KnownGraph κ) (hacts : ∀ x ∈ acts, x.Fits n next)
    (hn : st.g.nNodes = n)
    (hw : ∀ k a b, st.wwpairs.get? (k, a) = some b → next k a b) :
    ∃ st', runActs st acts = .ok st' := by
  let I : KnownGraph κ → Prop :=
    fun st => st.g.nNodes = n ∧ ∀ k a b, st.wwpairs.get? (k, a) = some b → next k a b
  have hstep : ∀ st x, x ∈ acts → I st → ∃ st', act st x = .ok st' ∧ I st' := by
    intro st x hx ⟨hn, hw⟩
    have hfit := hacts x hx
    cases x with
    | edge e =>
      obtain ⟨g, hg, hs⟩ := exec_spec (G := st.g) (c := .edge e) (hn ▸ hfit)
      rw [exec] at hg
      exact ⟨{ st with g := g }, by rw [act, KnownGraph.addEdge, hg, ok_bind],
        hs.nNodes.trans hn, hw⟩
    | reader k w r => exact ⟨_, rfl, hn, hw⟩
    | next k a b =>
      refine ⟨_, addWwpairs_eq_ok.mpr ⟨fun b' hb' => hu k a b' b (hw k a b' hb') hfit, rfl⟩, hn,
        fun k' a' b' h => ?_⟩
      rw [Dict.get?_set] at h
      split at h
      · rename_i he
        cases he
        cases h
        exact hfit
      · exact hw k' a' b' h
    | fresh k a =>
      have hnone : st.wwpairs.get? (k, a) = none :=
        Option.eq_none_iff_forall_ne_some.mpr (fun b hb => hfit b (hw k a b hb))
      exact ⟨st, by simp [act, hnone, require], hn, hw⟩
    | raise e => exact absurd hfit id
  obtain ⟨st', h, _⟩ := foldlM_total I hstep ⟨hn, hw⟩
  exact ⟨st', h⟩

end Run

section Reads

variable {κ ν : Type} [LinearOrder κ] [DecidableEq ν] (o : SetOrder)
  (H : List (Entry (Mop κ (ListValue ν)))) (X : Index κ (ListValue ν))

def nilActs (k : κ) (readTxns : List Nat) : List (Act κ) :=
  (if (o.iter (getIn X k .nil)).isEmpty then [] else [.raise (.assertion "")]) ++
    (edgeActs [0] (o.iter readTxns) .wr ++
      ((o.iter readTxns).flatMap
        (fun r => edgeActs [r] (o.iter (diff (kWritesFn X k) [r])) .rw ++ [.reader k 0 r]) ++
        [.fresh k 0]))

theorem addNilRead_eq (k : κ) (readTxns : List Nat) (st : KnownGraph κ) :
    addNilRead o X k readTxns st = runActs st (nilActs o X k readTxns) := by
  have hbody : ∀ r ∈ o.iter readTxns, ∀ st : KnownGraph κ, (do
      let st ← st.addEdges [r] (o.iter (diff (kWritesFn X k) [r])) .rw
      .ok (st.addReader k 0 r)) =
      runActs st (edgeActs [r] (o.iter (diff (kWritesFn X k) [r])) .rw ++ [.reader k 0 r]) := by
    intro r _ st
    rw [addEdges_eq, runActs_append]
    rfl
  rw [addNilRead, nilActs, runActs_append]
  cases (o.iter (getIn X k .nil)).isEmpty
  · rfl
  · simp only [require, if_true, ok_bind]
    rw [addEdges_eq, runActs_nil, ok_bind, runActs_append]
    congr 1
    funext st
    rw [runActs_flatMap hbody, runActs_append]
    congr 1
    funext st
    rw [runActs_singleton]
    rfl

def neighbourActs (k : κ) (q : ν × ν) : List (Act κ) :=
  match o.iter (getIn X k (.elem q.1)), o.iter (getIn X k (.elem q.2)) with
  | [txnI], [txnJ] => if txnJ ≠ txnI then [.next k txnI txnJ] else []
  | _, _ => [.raise (.assertion "")]

theorem addNeighbours_eq (k : κ) (st : KnownGraph κ) (q : ν × ν) :
    addNeighbours o X k st q = runActs st (neighbourActs o X k q) := by
  rw [addNeighbours, neighbourActs]
  rcases o.iter (getIn X k (.elem q.1)) with _ | ⟨a, _ | ⟨a', l⟩⟩
  · rfl
  · rcases o.iter (getIn X k (.elem q.2)) with _ | ⟨b, _ | ⟨b', l⟩⟩
    · rfl
    · by_cases hb : b = a
      · simp [hb]
      · simp [hb, act]
    · rfl
  · rfl

def readerActs (k : κ) (Tj readTxn : Nat) : List (Act κ) :=
  .reader k Tj readTxn :: if readTxn ∈ kWritesFn X k then [.next k Tj readTxn] else []

omit [DecidableEq ν] in
theorem addVersionReader_eq (k : κ) (Tj : Nat) (st : KnownGraph κ) (readTxn : Nat) :
    addVersionReader X k Tj st readTxn = runActs st (readerActs X k Tj readTxn) := by
  rw [addVersionReader, readerActs, runActs_cons, act, ok_bind]
  split
  · rw [runActs_singleton, act]
  · rfl

def missedActs (k : κ) (xs : List ν) (Ti Tk : Nat) : Mop κ (ListValue ν) → List (Act κ)
  | .append k' v => if k' = k ∧ occursIn v xs = false then [.edge ⟨Ti, Tk, .rw⟩] else []
  | _ => []

theorem addMissed_eq (k : κ) (xs : List ν) (Ti Tk : Nat) (st : KnownGraph κ)
    (mop : Mop κ (ListValue ν)) :
    addMissed k xs Ti Tk st mop = runActs st (missedActs k xs Ti Tk mop) := by
  cases mop with
  | append k' v =>
    by_cases hk : k' = k
    · cases hv : occursIn v xs <;> simp [addMissed, missedActs, hk, hv, act]
    · simp [addMissed, missedActs, hk]
  | r _ _ _ | w _ _ _ | i _ _ _ _ _ | d _ _ _ _ _ | range _ _ _ _ _ => rfl

def missedTxnActs (k : κ) (xs : List ν) (Ti Tk : Nat) : List (Act κ) :=
  match txnAt H Tk with
  | .error e => [.raise e]
  | .ok txn => txn.flatMap (missedActs k xs Ti Tk)

def listActs (k : κ) (xs : List ν) (readTxns : List Nat) : List (Act κ) :=
  match xs.getLast? with
  | none => [.raise .indexError]
  | some x =>
    match o.iter (getIn X k (.elem x)) with
    | [Tj] => edgeActs [Tj] (o.iter readTxns) .wr ++
        ((o.iter readTxns).flatMap (readerActs X k Tj) ++
        ((xs.zip xs.tail).flatMap (neighbourActs o X k) ++
          (o.iter readTxns).flatMap
            (fun Ti => (o.iter (diff (kWritesFn X k) [Ti, Tj])).flatMap (missedTxnActs H k xs Ti))))
    | _ => [.raise (.reject "can't find the corresponding write")]

theorem addListRead_eq (k : κ) (xs : List ν) (readTxns : List Nat) (st : KnownGraph κ) :
    addListRead o H X k xs readTxns st = runActs st (listActs o H X k xs readTxns) := by
  rw [addListRead, listActs]
  cases xs.getLast? with
  | none => rfl
  | some x =>
    dsimp only
    rcases o.iter (getIn X k (.elem x)) with _ | ⟨Tj, _ | ⟨Tk, l⟩⟩
    · rfl
    · simp only [runActs_append]
      rw [addEdges_eq]
      congr 1
      funext st
      rw [runActs_flatMap (fun r _ st => addVersionReader_eq X k Tj st r)]
      congr 1
      funext st
      rw [runActs_flatMap (fun q _ st => addNeighbours_eq o X k st q)]
      congr 1
      funext st
      refine runActs_flatMap (fun Ti _ st => ?_) st
      refine runActs_flatMap (fun Tk _ st => ?_) st
      rw [missedTxnActs]
      cases txnAt H Tk with
      | error e => rfl
      | ok txn => exact runActs_flatMap (fun mop _ st => addMissed_eq k xs Ti Tk st mop) st
    · rfl

def readActs (k : κ) (p : ListValue ν × List Nat) : List (Act κ) :=
  match p.1 with
  | .nil => nilActs o X k p.2
  | .list xs => listActs o H X k xs p.2
  | .elem _ => [.raise .typeError]

theorem addRead_eq (k : κ) (st : KnownGraph κ) (p : ListValue ν × List Nat) :
    addRead o H X k st p = runActs st (readActs o H X k p) := by
  obtain ⟨v, l⟩ := p
  cases v with
  | nil => exact addNilRead_eq o X k l st
  | list xs => exact addListRead_eq o H X k xs l st
  | elem x => rfl

/-- The actions of the whole loop. -/
def allActs (R : Index κ (ListValue ν)) : List (Act κ) :=
  R.entries.flatMap fun p => p.2.entries.flatMap (readActs o H X p.1)

theorem addReads_eq (R : Index κ (ListValue ν)) (st : KnownGraph κ) :
    R.entries.foldlM (fun st p => p.2.entries.foldlM (addRead o H X p.1) st) st =
      runActs st (allActs o H X R) := by
  refine runActs_flatMap (fun p _ st => ?_) st
  exact runActs_flatMap (fun q _ st => addRead_eq o H X p.1 st q) st

theorem mem_allActs (R : Index κ (ListValue ν)) (x : Act κ) :
    x ∈ allActs o H X R ↔ ∃ k v l, R.get2? k v = some l ∧ x ∈ readActs o H X k (v, l) := by
  simp only [allActs, List.mem_flatMap, Prod.exists, Dict.get2?_eq_some]
  constructor
  · rintro ⟨k, e, he, v, l, hl, hx⟩
    exact ⟨k, v, l, ⟨e, he, hl⟩, hx⟩
  · rintro ⟨k, v, l, ⟨e, he, hl⟩, hx⟩
    exact ⟨k, e, he, v, l, hl, hx⟩

end Reads

section Facts

variable {κ ν : Type} [LinearOrder κ] [DecidableEq ν] {o : SetOrder} {lines : List (LogTxn κ ν)}
  {X R : Index κ (ListValue ν)}
  (hX : IndexOf X (fun i k v => ∃ x, v = .elem x ∧ Appends lines i k x))
  (hR : IndexOf R (fun j k v => ∃ xs, Reads lines j k xs ∧ v = readValue xs))
include hX

theorem iter_eq_singleton (k : κ) (x : ν) (a : Nat) :
    o.iter (getIn X k (.elem x)) = [a] ↔ ∀ i, Appends lines i k x ↔ i = a := by
  have hW : ∀ i, (∃ y, ListValue.elem x = .elem y ∧ Appends lines i k y) ↔ Appends lines i k x := by
    intro i
    simp
  have hm : ∀ i, i ∈ o.iter (getIn X k (.elem x)) ↔ Appends lines i k x := by
    intro i
    rw [SetOrder.mem_iter, hX.mem, hW]
  constructor
  · intro h i
    rw [← hm, h, List.mem_singleton]
  · intro h
    rcases writers_cases hX o k (.elem x) with ⟨_, hno⟩ | ⟨i, hi, hw⟩ | ⟨i, i', l, _, hne, hw, hw'⟩
    · exact absurd ((hW a).mpr ((h a).mpr rfl)) (hno a)
    · rw [hi, (h i).mp ((hW i).mp hw)]
    · exact absurd (((h i).mp ((hW i).mp hw)).trans ((h i').mp ((hW i').mp hw')).symm) hne

omit [LinearOrder κ] [DecidableEq ν] hX in
theorem writes_iff (k : κ) (i : Nat) :
    (∃ v x, v = ListValue.elem x ∧ Appends lines i k x) ↔ Writes lines k i :=
  ⟨fun ⟨_, x, _, hx⟩ => ⟨x, hx⟩, fun ⟨x, hx⟩ => ⟨_, x, rfl, hx⟩⟩

theorem mem_writers (k : κ) (i : Nat) : i ∈ kWritesFn X k ↔ Writes lines k i :=
  (mem_kWritesFn hX k i).trans (writes_iff k i)

theorem getIn_nil (k : κ) : getIn X k .nil = [] := by
  refine List.eq_nil_iff_forall_not_mem.mpr (fun i hi => ?_)
  obtain ⟨x, hx, _⟩ := (hX.mem i k .nil).mp hi
  cases hx

omit [DecidableEq ν] hX in
theorem mem_edgeActs {κ : Type} (srcs dsts : List Nat) (type : EdgeType) (x : Act κ) :
    x ∈ edgeActs srcs dsts type ↔ ∃ src ∈ srcs, ∃ dst ∈ dsts, x = .edge ⟨src, dst, type⟩ := by
  simp [edgeActs, eq_comm]

theorem mem_nilActs (k : κ) (l : List Nat) (x : Act κ) : x ∈ nilActs o X k l ↔
    (∃ r ∈ l, x = .edge ⟨0, r, .wr⟩ ∨ x = .reader k 0 r ∨
      ∃ w, Writes lines k w ∧ w ≠ r ∧ x = .edge ⟨r, w, .rw⟩) ∨
      x = .fresh k 0 := by
  simp only [nilActs, getIn_nil hX, SetOrder.iter_nil, List.isEmpty_nil, if_true, List.nil_append,
    List.mem_append,
    mem_edgeActs, List.mem_flatMap, SetOrder.mem_iter, List.mem_singleton, mem_diff, mem_writers hX]
  constructor
  · rintro (⟨_, rfl, r, hr, rfl⟩ | ⟨r, hr, ⟨_, rfl, w, ⟨hw, hne⟩, rfl⟩ | rfl⟩ | rfl)
    · exact .inl ⟨r, hr, .inl rfl⟩
    · exact .inl ⟨_, hr, .inr (.inr ⟨w, hw, hne, rfl⟩)⟩
    · exact .inl ⟨r, hr, .inr (.inl rfl)⟩
    · exact .inr rfl
  · rintro (⟨r, hr, rfl | rfl | ⟨w, hw, hne, rfl⟩⟩ | rfl)
    · exact .inl ⟨0, rfl, r, hr, rfl⟩
    · exact .inr (.inl ⟨r, hr, .inr rfl⟩)
    · exact .inr (.inl ⟨r, hr, .inl ⟨r, rfl, w, ⟨hw, hne⟩, rfl⟩⟩)
    · exact .inr (.inr rfl)

omit hX in
/-- The appends of `Tk` that a reader of `xs` misses. -/
theorem mem_missedTxnActs {k : κ} {Tk : Nat} (hw : Writes lines k Tk) (xs : List ν) (Ti : Nat)
    (x : Act κ) :
    x ∈ missedTxnActs (parse o lines).1 k xs Ti Tk ↔
      (∃ y, Appends lines Tk k y ∧ y ∉ xs) ∧ x = .edge ⟨Ti, Tk, .rw⟩ := by
  obtain ⟨x₀, hx₀⟩ := hw
  obtain ⟨_, e, he, hv⟩ := txnAt_of_op o lines hx₀
  have htxn : txnAt (parse o lines).1 Tk = .ok ((opsOf lines Tk).map parseMop) := by
    simp only [txnAt, he, txnOf, hv]
  simp only [missedTxnActs, htxn, List.mem_flatMap, List.mem_map]
  constructor
  · rintro ⟨_, ⟨m, hm, rfl⟩, hx⟩
    cases m with
    | r k' v => rw [parseMop_r] at hx; cases hx
    | append k' y =>
      rw [parseMop, missedActs] at hx
      by_cases hc : k' = k ∧ occursIn (.elem y) xs = false
      · rw [if_pos hc] at hx
        obtain ⟨rfl, hy⟩ := hc
        exact ⟨⟨y, hm, by simpa [occursIn] using hy⟩, List.mem_singleton.mp hx⟩
      · rw [if_neg hc] at hx
        cases hx
  · rintro ⟨⟨y, hy, hn⟩, rfl⟩
    refine ⟨_, ⟨_, hy, rfl⟩, ?_⟩
    simp [parseMop, missedActs, occursIn, hn]

theorem mem_neighbourActs {k : κ} {q : ν × ν} {a b : Nat} (ha : ∀ i, Appends lines i k q.1 ↔ i = a)
    (hb : ∀ i, Appends lines i k q.2 ↔ i = b) (x : Act κ) :
    x ∈ neighbourActs o X k q ↔ a ≠ b ∧ x = .next k a b := by
  rw [neighbourActs, (iter_eq_singleton hX k q.1 a).mpr ha, (iter_eq_singleton hX k q.2 b).mpr hb]
  by_cases hab : b = a
  · simp [hab]
  · simp [hab, Ne.symm hab]

omit hX [DecidableEq ν] in
/-- A list that is not empty holds its elements last or before a neighbour. -/
theorem last_or_linked {xs : List ν} {x : ν} (hx : x ∈ xs) :
    xs.getLast? = some x ∨ ∃ y, Linked xs x y := by
  obtain ⟨l₁, l₂, rfl⟩ := List.append_of_mem hx
  cases l₂ with
  | nil => exact .inl (by simp)
  | cons y l₂ => exact .inr ⟨y, l₁, l₂, rfl⟩

/-- A list is rejected whose last element has no unique appender. -/
theorem listActs_unsourced {k : κ} {xs : List ν} {z : ν} (hz : xs.getLast? = some z)
    (hno : ¬ OneAppender lines k z) (H : List (Entry (Mop κ (ListValue ν))))
    (l : List Nat) :
    listActs o H X k xs l = [.raise (.reject "can't find the corresponding write")] := by
  rw [listActs, hz]
  dsimp only
  rcases hw : o.iter (getIn X k (.elem z)) with _ | ⟨a, _ | ⟨b, l'⟩⟩
  · rfl
  · exact absurd ⟨a, (iter_eq_singleton hX k z a).mp hw⟩ hno
  · rfl

/-- Neighbours without unique appenders crash the builder. -/
theorem neighbourActs_unsourced {k : κ} {q : ν × ν}
    (hno : ¬ (OneAppender lines k q.1 ∧ OneAppender lines k q.2)) :
    neighbourActs o X k q = [.raise (.assertion "")] := by
  rw [neighbourActs]
  rcases hw : o.iter (getIn X k (.elem q.1)) with _ | ⟨a, _ | ⟨a', l⟩⟩
  · rfl
  · rcases hw' : o.iter (getIn X k (.elem q.2)) with _ | ⟨b, _ | ⟨b', l⟩⟩
    · rfl
    · exact absurd ⟨⟨a, (iter_eq_singleton hX k q.1 a).mp hw⟩,
        ⟨b, (iter_eq_singleton hX k q.2 b).mp hw'⟩⟩ hno
    · rfl
  · rfl

/-- The edges to the readers of a list, their successions, and those of the
neighbours in a part of it. -/
def shownActs (o : SetOrder) (X : Index κ (ListValue ν)) (k : κ) (a : Nat)
    (l : List Nat) (ys : List ν) : List (Act κ) :=
  edgeActs [a] (o.iter l) .wr ++ ((o.iter l).flatMap (readerActs X k a) ++
    (ys.zip ys.tail).flatMap (neighbourActs o X k))

theorem mem_shownActs {k : κ} {ys : List ν} (hS : ∀ y ∈ ys, OneAppender lines k y) (a : Nat)
    (l : List Nat) (x : Act κ) :
    x ∈ shownActs o X k a l ys ↔
      (∃ r ∈ l, x = .edge ⟨a, r, .wr⟩ ∨ x = .reader k a r ∨ (Writes lines k r ∧ x = .next k a r)) ∨
      ∃ y y' b c, Linked ys y y' ∧ Appends lines b k y ∧ Appends lines c k y' ∧ b ≠ c ∧
        x = .next k b c := by
  have hnb : ∀ q : ν × ν, q ∈ ys.zip ys.tail → (x ∈ neighbourActs o X k q ↔
      ∃ b c, Appends lines b k q.1 ∧ Appends lines c k q.2 ∧ b ≠ c ∧ x = .next k b c) := by
    intro q hq
    obtain ⟨hq₁, hq₂⟩ := ((mem_zip_tail ys q.1 q.2).mp hq).mem
    obtain ⟨b, hb⟩ := hS q.1 hq₁
    obtain ⟨c, hc⟩ := hS q.2 hq₂
    rw [mem_neighbourActs hX hb hc]
    simp [hb, hc]
  simp only [shownActs, List.mem_append, mem_edgeActs, List.mem_flatMap, SetOrder.mem_iter,
    List.mem_singleton, exists_eq_left]
  constructor
  · rintro (⟨r, hr, rfl⟩ | ⟨r, hr, hx⟩ | ⟨q, hq, hx⟩)
    · exact .inl ⟨r, hr, .inl rfl⟩
    · rcases List.mem_cons.mp hx with rfl | hx
      · exact .inl ⟨r, hr, .inr (.inl rfl)⟩
      · split at hx
        · rename_i hw
          exact .inl ⟨r, hr, .inr (.inr ⟨(mem_writers hX k r).mp hw, List.mem_singleton.mp hx⟩)⟩
        · cases hx
    · obtain ⟨b, c, hb, hc, hne, rfl⟩ := (hnb q hq).mp hx
      exact .inr ⟨q.1, q.2, b, c, (mem_zip_tail ys q.1 q.2).mp hq, hb, hc, hne, rfl⟩
  · rintro (⟨r, hr, rfl | rfl | ⟨hw, rfl⟩⟩ | ⟨y, y', b, c, hl, hb, hc, hne, rfl⟩)
    · exact .inl ⟨r, hr, rfl⟩
    · exact .inr (.inl ⟨r, hr, List.mem_cons_self⟩)
    · refine .inr (.inl ⟨r, hr, List.mem_cons_of_mem _ ?_⟩)
      rw [if_pos ((mem_writers hX k r).mpr hw)]
      exact List.mem_singleton.mpr rfl
    · have hq := (mem_zip_tail ys y y').mpr hl
      exact .inr (.inr ⟨(y, y'), hq, (hnb _ hq).mpr ⟨b, c, hb, hc, hne, rfl⟩⟩)

/-- The last part of a list: its readers miss appends of other transactions. -/
def missedListActs (o : SetOrder) (H : List (Entry (Mop κ (ListValue ν))))
    (X : Index κ (ListValue ν)) (k : κ) (xs : List ν) (a : Nat) (l : List Nat) : List (Act κ) :=
  (o.iter l).flatMap fun r =>
    (o.iter (diff (kWritesFn X k) [r, a])).flatMap (missedTxnActs H k xs r)

theorem mem_missedListActs (k : κ) (xs : List ν) (a : Nat) (l : List Nat) (x : Act κ) :
    x ∈ missedListActs o (parse o lines).1 X k xs a l ↔
      ∃ r ∈ l, ∃ w y, Appends lines w k y ∧ y ∉ xs ∧ w ≠ r ∧ w ≠ a ∧ x = .edge ⟨r, w, .rw⟩ := by
  simp only [missedListActs, List.mem_flatMap, SetOrder.mem_iter, mem_diff, mem_writers hX,
    List.mem_cons, List.not_mem_nil, or_false, not_or]
  constructor
  · rintro ⟨r, hr, w, ⟨hw, hwr, hwa⟩, hx⟩
    obtain ⟨⟨y, hy, hyn⟩, rfl⟩ := (mem_missedTxnActs hw xs r x).mp hx
    exact ⟨r, hr, w, y, hy, hyn, hwr, hwa, rfl⟩
  · rintro ⟨r, hr, w, y, hy, hyn, hwr, hwa, rfl⟩
    have hw : Writes lines k w := ⟨y, hy⟩
    exact ⟨r, hr, w, ⟨hw, hwr, hwa⟩, (mem_missedTxnActs hw xs r _).mpr ⟨⟨y, hy, hyn⟩, rfl⟩⟩

theorem listActs_sourced {k : κ} {xs : List ν} {z : ν} {a : Nat} (hz : xs.getLast? = some z)
    (ha : ∀ i, Appends lines i k z ↔ i = a) (H : List (Entry (Mop κ (ListValue ν))))
    (l : List Nat) :
    listActs o H X k xs l = shownActs o X k a l xs ++ missedListActs o H X k xs a l := by
  rw [listActs, hz]
  simp only [(iter_eq_singleton hX k z a).mpr ha, shownActs, missedListActs, List.append_assoc]

/-- The actions of one list, where its elements have one appender each. -/
theorem mem_listActs {k : κ} {xs : List ν} (hS : ∀ x ∈ xs, OneAppender lines k x) {z : ν}
    (hz : xs.getLast? = some z) (l : List Nat) (x : Act κ) :
    x ∈ listActs o (parse o lines).1 X k xs l ↔
      (∃ a, Appends lines a k z ∧ ∃ r ∈ l, x = .edge ⟨a, r, .wr⟩ ∨ x = .reader k a r ∨
        (Writes lines k r ∧ x = .next k a r) ∨
        ∃ w y, Appends lines w k y ∧ y ∉ xs ∧ w ≠ r ∧ ¬ Appends lines w k z ∧
        x = .edge ⟨r, w, .rw⟩) ∨
      ∃ y y' a b, Linked xs y y' ∧ Appends lines a k y ∧ Appends lines b k y' ∧ a ≠ b ∧
        x = .next k a b := by
  obtain ⟨Tj, hTj⟩ := hS z (List.mem_of_getLast? hz)
  rw [listActs_sourced hX hz hTj, List.mem_append, mem_shownActs hX hS, mem_missedListActs hX]
  simp only [hTj, exists_eq_left]
  constructor
  · rintro ((⟨r, hr, hx⟩ | hx) | ⟨r, hr, w, y, hy, hyn, hwr, hwa, rfl⟩)
    · refine .inl ⟨r, hr, ?_⟩
      rcases hx with rfl | rfl | hx
      · exact .inl rfl
      · exact .inr (.inl rfl)
      · exact .inr (.inr (.inl hx))
    · exact .inr hx
    · exact .inl ⟨r, hr, .inr (.inr (.inr ⟨w, y, hy, hyn, hwr, hwa, rfl⟩))⟩
  · rintro (⟨r, hr, hx⟩ | hx)
    · rcases hx with rfl | rfl | hx | ⟨w, y, hy, hyn, hwr, hwa, rfl⟩
      · exact .inl (.inl ⟨r, hr, .inl rfl⟩)
      · exact .inl (.inl ⟨r, hr, .inr (.inl rfl)⟩)
      · exact .inl (.inl ⟨r, hr, .inr (.inr hx)⟩)
      · exact .inr ⟨r, hr, w, y, hy, hyn, hwr, hwa, rfl⟩
    · exact .inl (.inr hx)

include hR

omit hX in
theorem mem_getIn_reads {j : Nat} {k : κ} {xs : List ν} :
    j ∈ getIn R k (readValue xs) ↔ Reads lines j k xs := by
  rw [hR.mem]
  constructor
  · rintro ⟨ys, hys, he⟩
    exact readValue_inj he ▸ hys
  · intro h
    exact ⟨xs, h, rfl⟩

omit hX in
theorem mem_index {j : Nat} {k : κ} {xs : List ν} :
    (∃ l, R.get2? k (readValue xs) = some l ∧ j ∈ l) ↔ Reads lines j k xs := by
  rw [← mem_getIn_reads hR, getIn]
  cases R.get2? k (readValue xs) <;> simp

omit hX in
/-- Every entry of the index of reads is a list somebody read. -/
theorem exists_reader {k : κ} {v : ListValue ν} {l : List Nat} (hl : R.get2? k v = some l) :
    ∃ xs, v = readValue xs ∧ (∃ j, j ∈ l) ∧ ∀ j, j ∈ l ↔ Reads lines j k xs := by
  obtain ⟨j, hj⟩ := List.exists_mem_of_ne_nil l (hR.nonempty hl)
  obtain ⟨xs, _, rfl⟩ := (hR.mem j k v).mp (by rw [getIn, hl]; exact hj)
  refine ⟨xs, rfl, ⟨j, hj⟩, fun i => ?_⟩
  rw [← mem_index hR, hl]
  simp

/-- What the loop over the reads does, where all elements have one appender. -/
inductive ReadStep (lines : List (LogTxn κ ν)) : Act κ → Prop
  | nil {j k} : Reads lines j k [] → ReadStep lines (.edge ⟨0, j, .wr⟩)
  | read {k a j} : ReadsFrom lines k a j → ReadStep lines (.edge ⟨a, j, .wr⟩)
  | missed {j k xs w y} : Reads lines j k xs → Appends lines w k y → y ∉ xs → w ≠ j →
      (∀ z, xs.getLast? = some z → ¬ Appends lines w k z) → ReadStep lines (.edge ⟨j, w, .rw⟩)
  | nilReader {j k} : Reads lines j k [] → ReadStep lines (.reader k 0 j)
  | reader {k a j} : ReadsFrom lines k a j → ReadStep lines (.reader k a j)
  | next {k a b} : Successor lines k a b → ReadStep lines (.next k a b)
  | fresh {j k} : Reads lines j k [] → ReadStep lines (.fresh k 0)

omit hX in
theorem mem_acts_of_read {k : κ} {xs : List ν} {j : Nat} (hj : Reads lines j k xs) {x : Act κ} :
    (∀ l, (∀ i, i ∈ l ↔ Reads lines i k xs) →
      x ∈ readActs o (parse o lines).1 X k (readValue xs, l)) →
      x ∈ allActs o (parse o lines).1 X R := by
  intro h
  obtain ⟨l, hl, _⟩ := (mem_index hR).mpr hj
  refine (mem_allActs o _ X R x).mpr ⟨k, _, l, hl, h l (fun i => ?_)⟩
  rw [← mem_index hR, hl]
  simp

omit hX in
theorem mem_acts_of_list {k : κ} {xs : List ν} {j : Nat} (hj : Reads lines j k xs) {z : ν}
    (hz : xs.getLast? = some z)
    {x : Act κ}
    (h : ∀ l, (∀ i, i ∈ l ↔ Reads lines i k xs) → x ∈ listActs o (parse o lines).1 X k xs l) :
    x ∈ allActs o (parse o lines).1 X R := by
  refine mem_acts_of_read hR hj (fun l hl => ?_)
  cases xs with
  | nil => cases hz
  | cons x₀ xs₀ => exact h l hl

section Steps

variable (hS : Sourced lines) {x : Act κ}
include hS

theorem ReadStep.of_acts (hx : x ∈ allActs o (parse o lines).1 X R) : ReadStep lines x := by
  obtain ⟨k, v, l, hl, hx⟩ := (mem_allActs o _ X R x).mp hx
  obtain ⟨xs, rfl, ⟨j, hj⟩, hmem⟩ := exists_reader hR hl
  cases xs with
  | nil =>
    rcases (mem_nilActs hX k l x).mp hx with ⟨r, hr, rfl | rfl | ⟨w, ⟨y, hy⟩, hne, rfl⟩⟩ | rfl
    · exact .nil ((hmem r).mp hr)
    · exact .nilReader ((hmem r).mp hr)
    · exact .missed ((hmem r).mp hr) hy (List.not_mem_nil) hne (by simp)
    · exact .fresh ((hmem j).mp hj)
  | cons x₀ xs₀ =>
    obtain ⟨z, hz⟩ : ∃ z, (x₀ :: xs₀).getLast? = some z :=
      ⟨_, List.getLast?_eq_some_getLast (List.cons_ne_nil x₀ xs₀)⟩
    rcases (mem_listActs hX (fun y hy => hS j k _ y ((hmem j).mp hj) hy) hz l x).mp hx with
      ⟨a, ha, r, hr, rfl | rfl | ⟨hw, rfl⟩ | ⟨w, y, hy, hyn, hwr, hwz, rfl⟩⟩ | ⟨y, y', a, b, hlk,
        ha, hb, hne, rfl⟩
    · exact .read ⟨_, z, (hmem r).mp hr, hz, ha⟩
    · exact .reader ⟨_, z, (hmem r).mp hr, hz, ha⟩
    · exact .next (.inl ⟨hw, _, z, (hmem r).mp hr, hz, ha⟩)
    · refine .missed ((hmem r).mp hr) hy hyn hwr (fun z' hz' => ?_)
      rw [hz] at hz'
      cases hz'
      exact hwz
    · exact .next (.inr ⟨j, _, y, y', (hmem j).mp hj, hlk, ha, hb, hne⟩)

theorem ReadStep.mem_acts (h : ReadStep lines x) : x ∈ allActs o (parse o lines).1 X R := by
  have hlist := fun {j k xs z} (hr : Reads lines j k xs) (hz : xs.getLast? = some z) =>
    mem_listActs (o := o) hX (fun y hy => hS j k xs y hr hy) hz
  cases h with
  | @nil j k hr =>
    refine mem_acts_of_read hR hr (fun l hl => ?_)
    exact (mem_nilActs hX k l _).mpr (.inl ⟨j, (hl j).mpr hr, .inl rfl⟩)
  | @read k a j h =>
    obtain ⟨xs, z, hr, hz, ha⟩ := h
    refine mem_acts_of_list hR hr hz (fun l hl => ?_)
    exact (hlist hr hz l _).mpr (.inl ⟨a, ha, j, (hl j).mpr hr, .inl rfl⟩)
  | @missed j k xs w y hr hy hyn hwj hwz =>
    cases hz : xs.getLast? with
    | none =>
      obtain rfl := List.getLast?_eq_none_iff.mp hz
      refine mem_acts_of_read hR hr (fun l hl => ?_)
      exact (mem_nilActs hX k l _).mpr (.inl ⟨j, (hl j).mpr hr, .inr (.inr ⟨w, ⟨y, hy⟩, hwj, rfl⟩)⟩)
    | some z =>
      obtain ⟨a, ha⟩ := hS j k xs z hr (List.mem_of_getLast? hz)
      refine mem_acts_of_list hR hr hz (fun l hl => (hlist hr hz l _).mpr ?_)
      exact .inl ⟨a, (ha a).mpr rfl, j, (hl j).mpr hr,
        .inr (.inr (.inr ⟨w, y, hy, hyn, hwj, hwz z hz, rfl⟩))⟩
  | @nilReader j k hr =>
    refine mem_acts_of_read hR hr (fun l hl => ?_)
    exact (mem_nilActs hX k l _).mpr (.inl ⟨j, (hl j).mpr hr, .inr (.inl rfl)⟩)
  | @reader k a j h =>
    obtain ⟨xs, z, hr, hz, ha⟩ := h
    refine mem_acts_of_list hR hr hz (fun l hl => ?_)
    exact (hlist hr hz l _).mpr (.inl ⟨a, ha, j, (hl j).mpr hr, .inr (.inl rfl)⟩)
  | @next k a b h =>
    rcases h with ⟨hw, xs, z, hr, hz, ha⟩ | ⟨j, xs, y, y', hr, hl, ha, hb, hne⟩
    · refine mem_acts_of_list hR hr hz (fun l hl => ?_)
      exact (hlist hr hz l _).mpr (.inl ⟨a, ha, b, (hl b).mpr hr, .inr (.inr (.inl ⟨hw, rfl⟩))⟩)
    · have hz := List.getLast?_eq_some_getLast (List.ne_nil_of_mem hl.mem.1)
      refine mem_acts_of_list hR hr hz (fun l _ => ?_)
      exact (hlist hr hz l _).mpr (.inr ⟨y, y', a, b, hl, ha, hb, hne, rfl⟩)
  | @fresh j k hr => exact mem_acts_of_read hR hr (fun l _ => (mem_nilActs hX k l _).mpr (.inr rfl))

end Steps

/-- The loop either raises, or its actions are known from the log. -/
theorem mem_acts_iff (hS : Sourced lines) (x : Act κ) :
    x ∈ allActs o (parse o lines).1 X R ↔ ReadStep lines x :=
  ⟨ReadStep.of_acts hX hR hS, ReadStep.mem_acts hX hR hS⟩

/-- Where nothing is raised, every element that was read has one appender. -/
theorem sourced_of_acts (h : ∀ e, .raise e ∉ allActs o (parse o lines).1 X R) : Sourced lines := by
  intro j k xs x hr hx
  have hno : ∀ e, ¬ ∀ l, (∀ i, i ∈ l ↔ Reads lines i k xs) →
      .raise e ∈ listActs o (parse o lines).1 X k xs l := by
    intro e hall
    have hz := List.getLast?_eq_some_getLast (List.ne_nil_of_mem hx)
    exact h e (mem_acts_of_list hR hr hz hall)
  obtain ⟨z, hz⟩ : ∃ z, xs.getLast? = some z :=
    ⟨_, List.getLast?_eq_some_getLast (List.ne_nil_of_mem hx)⟩
  obtain ⟨a, ha⟩ : ∃ a, ∀ i, Appends lines i k z ↔ i = a := by
    by_contra hne
    refine hno (.reject "can't find the corresponding write") (fun l _ => ?_)
    rw [listActs_unsourced hX hz hne]
    exact List.mem_singleton.mpr rfl
  rcases last_or_linked hx with hl | ⟨y, hl⟩
  · rw [hz] at hl
    cases hl
    exact ⟨a, ha⟩
  · by_contra hne
    refine hno (.assertion "") (fun l _ => ?_)
    rw [listActs_sourced hX hz ha]
    have hraise := neighbourActs_unsourced (o := o) (q := (x, y)) hX (fun hq => hne hq.1)
    refine List.mem_append_left _ (List.mem_append_right _ (List.mem_append_right _ ?_))
    refine List.mem_flatMap.mpr ⟨(x, y), (mem_zip_tail xs x y).mpr hl, ?_⟩
    rw [hraise]
    exact List.mem_singleton.mpr rfl

end Facts

section Building

variable {κ ν : Type} [LinearOrder κ] [DecidableEq ν]

/-- The edges of the known graph. -/
inductive Known (lines : List (LogTxn κ ν)) (histories : List (List (Entry (Mop κ (ListValue ν)))))
    (strongSession : Bool) : Edge → Prop
  | session {i j} : strongSession = true → Consecutive histories i j →
      Known lines histories strongSession ⟨i, j, .cb⟩
  | initial {i} : 0 < i → i ≤ lines.length → Known lines histories strongSession ⟨0, i, .cb⟩
  | read {e} : ReadStep lines (.edge e) → Known lines histories strongSession e

variable (o : SetOrder) (lines : List (LogTxn κ ν))
  (histories : List (List (Entry (Mop κ (ListValue ν))))) (strongSession : Bool)

def baseScript : Script :=
  (if strongSession then sessionScript histories else []) ++ initialScript (lines.length + 1)

theorem createKnowngraph_eq {X R : Index κ (ListValue ν)}
    (hX : extWritesFn (parse o lines).1 = .ok X)
    (hR : extIndex (parse o lines).1 extReadsFn = .ok R) :
    createKnowngraph o (parse o lines).1 histories strongSession = (do
      let g ← play ((ArgumentedPolyGraph.init (lines.length + 1)).setSessionOrder histories)
        (baseScript lines histories strongSession)
      let st ← runActs ⟨g, Dict.empty, Dict.empty⟩ (allActs o (parse o lines).1 X R)
      .ok (st, X)) := by
  have hrest : ∀ g : ArgumentedPolyGraph κ, g.nNodes = lines.length + 1 → (do
      let g ← addInitialOrder g
      let st ← R.entries.foldlM
        (fun st p => p.2.entries.foldlM (addRead o (parse o lines).1 X p.1) st)
        ⟨g, Dict.empty, Dict.empty⟩
      .ok (st, X)) = (do
      let g ← play g (initialScript (lines.length + 1))
      let st ← runActs ⟨g, Dict.empty, Dict.empty⟩ (allActs o (parse o lines).1 X R)
      (.ok (st, X) : Except Err _)) := by
    intro g hg
    simp only [addInitialOrder_eq, hg, addReads_eq]
  simp only [createKnowngraph, length_parse, hX, hR, ok_bind, baseScript, play_append, bind_assoc,
    optionally_sessionOrder_eq]
  cases hp : play ((ArgumentedPolyGraph.init (lines.length + 1)).setSessionOrder histories)
      (if strongSession = true then sessionScript histories else []) with
  | error e => rfl
  | ok g => exact hrest g (play_played hp).nNodes

variable {lines histories strongSession}

omit [LinearOrder κ] [DecidableEq ν] in
theorem mem_baseScript (x : Except Err Cmd) : x ∈ baseScript lines histories strongSession ↔
    ∃ e, x = .ok (.edge e) ∧
    ((∃ i j, e = ⟨i, j, .cb⟩ ∧ strongSession = true ∧ Consecutive histories i j) ∨
      ∃ i, e = ⟨0, i, .cb⟩ ∧ 0 < i ∧ i ≤ lines.length) := by
  have hs : x ∈ (if strongSession then sessionScript histories else []) ↔
      strongSession = true ∧ x ∈ sessionScript histories := by
    cases strongSession <;> simp
  simp only [baseScript, List.mem_append, hs, mem_sessionScript, mem_initialScript, Nat.lt_succ_iff]
  constructor
  · rintro (⟨hss, i, j, hc, rfl⟩ | ⟨i, hi, hn, rfl⟩)
    · exact ⟨_, rfl, .inl ⟨i, j, rfl, hss, hc⟩⟩
    · exact ⟨_, rfl, .inr ⟨i, rfl, hi, hn⟩⟩
  · rintro ⟨e, rfl, ⟨i, j, rfl, hss, hc⟩ | ⟨i, rfl, hi, hn⟩⟩
    · exact .inl ⟨hss, i, j, hc, rfl⟩
    · exact .inr ⟨i, hi, hn, rfl⟩

omit [DecidableEq ν] in
theorem known_iff (e : Edge) : Known lines histories strongSession e ↔
    .ok (.edge e) ∈ baseScript lines histories strongSession ∨ ReadStep lines (.edge e) := by
  rw [mem_baseScript]
  constructor
  · rintro (⟨hss, hc⟩ | ⟨hi, hn⟩ | hr)
    · exact .inl ⟨_, rfl, .inl ⟨_, _, rfl, hss, hc⟩⟩
    · exact .inl ⟨_, rfl, .inr ⟨_, rfl, hi, hn⟩⟩
    · exact .inr hr
  · rintro (⟨_, he, ⟨i, j, rfl, hss, hc⟩ | ⟨i, rfl, hi, hn⟩⟩ | hr)
    · cases he
      exact .session hss hc
    · cases he
      exact .initial hi hn
    · exact .read hr

/-- What a completed known graph holds. -/
structure Built (lines : List (LogTxn κ ν)) (histories : List (List (Entry (Mop κ (ListValue ν)))))
    (strongSession : Bool) (st : KnownGraph κ) : Prop where
  nNodes : st.g.nNodes = lines.length + 1
  sessions : st.g.histories = histories.map (·.map Entry.id)
  inv : st.g.Inv
  before : ∀ a b, st.g.Before a b ↔ ∃ e, e.before = (a, b) ∧ Known lines histories strongSession e
  valid : ∀ e, Known lines histories strongSession e → (Cmd.edge e).Valid (lines.length + 1)
  readers : ∀ k w r, r ∈ st.readfrom.getD (k, w) [] ↔
    (w = 0 ∧ Reads lines r k []) ∨ ReadsFrom lines k w r
  wwpairs : ∀ k a b, st.wwpairs.get? (k, a) = some b ↔ Successor lines k a b
  sourced : Sourced lines

theorem built_of_ok {st : KnownGraph κ} {X : Index κ (ListValue ν)}
    (h : createKnowngraph o (parse o lines).1 histories strongSession = .ok (st, X)) :
    Built lines histories strongSession st ∧
      IndexOf X (fun i k v => ∃ x, v = .elem x ∧ Appends lines i k x) := by
  obtain ⟨X', hX', hXof⟩ := extWrites_parse o lines
  obtain ⟨R, hR, hRof⟩ := extReads_parse o lines
  rw [createKnowngraph_eq o lines histories strongSession hX' hR, bind_eq_ok] at h
  obtain ⟨g, hg, h⟩ := h
  rw [bind_eq_ok] at h
  obtain ⟨st', hst, he⟩ := h
  cases he
  have hran := ran_of_ok hst
  have hp := play_played hg
  have hp' := play_played hran.played
  have hS := sourced_of_acts hXof hRof hran.raise
  have hmem := mem_acts_iff hXof hRof (o := o) hS
  have hn : g.nNodes = lines.length + 1 := hp.nNodes
  have hinit := (ArgumentedPolyGraph.inv_init (κ := κ) (lines.length + 1)).setSessionOrder histories
  refine ⟨⟨hp'.nNodes.trans hn, hp'.histories.trans hp.histories, hp'.inv (hp.inv hinit),
    fun a b => ?_, fun e he => ?_, fun k w r => ?_, fun k a b => ?_, hS⟩, hXof⟩
  · rw [hp'.before, hp.before]
    simp only [mem_edgesOf, known_iff, hmem]
    constructor
    · rintro ((⟨_, _, _, hm, _⟩ | ⟨e, he, hb⟩) | ⟨e, ⟨e', he, hr⟩, hb⟩)
      · cases hm
      · exact ⟨e, hb, .inl he⟩
      · cases he
        exact ⟨e, hb, .inr hr⟩
    · rintro ⟨e, hb, he | hr⟩
      · exact .inl (.inr ⟨e, he, hb⟩)
      · exact .inr ⟨e, ⟨e, rfl, hr⟩, hb⟩
  · rcases (known_iff e).mp he with he | hr
    · obtain ⟨c, hc, hv⟩ := play_valid hg _ he
      cases hc
      exact hv
    · obtain ⟨c, hc, hv⟩ :=
        play_valid hran.played _ ((mem_edgesOf _ _).mpr ⟨e, rfl, (hmem _).mpr hr⟩)
      cases hc
      exact hn ▸ hv
  · rw [hran.readers, hmem]
    simp only [Dict.getD, Dict.get?_empty, Option.getD_none, List.not_mem_nil, false_or]
    constructor
    · rintro (⟨⟩ | ⟨⟩ | ⟨⟩ | hr | hr | _ | _)
      · exact .inl ⟨rfl, hr⟩
      · exact .inr hr
    · rintro (⟨rfl, hr⟩ | hr)
      · exact .nilReader hr
      · exact .reader hr
  · rw [hran.next, hmem]
    simp only [Dict.get?_empty, reduceCtorEq, false_or]
    constructor
    · rintro (⟨⟩ | ⟨⟩ | ⟨⟩ | ⟨⟩ | ⟨⟩ | hs | _)
      exact hs
    · exact .next

/-- The known graph is built whenever its edges are valid and no version has
two successors. -/
theorem createKnowngraph_total (hS : Sourced lines)
    (hv : ∀ e, Known lines histories strongSession e → (Cmd.edge e).Valid (lines.length + 1))
    (hu : ∀ k a b b', Successor lines k a b → Successor lines k a b' → b = b') :
    ∃ st X, createKnowngraph o (parse o lines).1 histories strongSession = .ok (st, X) := by
  obtain ⟨X, hX, hXof⟩ := extWrites_parse o lines
  obtain ⟨R, hR, hRof⟩ := extReads_parse o lines
  rw [createKnowngraph_eq o lines histories strongSession hX hR]
  obtain ⟨g, hg, hp⟩ := play_spec
    (G :=
      (ArgumentedPolyGraph.init (lines.length + 1) : ArgumentedPolyGraph κ).setSessionOrder
        histories)
    (S := baseScript lines histories strongSession) (fun x hx => by
      obtain ⟨e, rfl, he⟩ := (mem_baseScript x).mp hx
      exact ⟨_, rfl, hv e ((known_iff e).mpr (.inl hx))⟩)
  have hn : g.nNodes = lines.length + 1 := hp.nNodes
  obtain ⟨st, hst⟩ := runActs_total (n := lines.length + 1) hu (allActs o (parse o lines).1 X R)
    ⟨g, Dict.empty, Dict.empty⟩ (fun x hx => by
      have hr := (mem_acts_iff hXof hRof hS x).mp hx
      cases x with
      | edge e => exact hv e (.read hr)
      | reader k w r => trivial
      | next k a b => cases hr with | next hs => exact hs
      | fresh k a =>
        intro b hs
        obtain rfl : a = 0 := by cases hr; rfl
        rcases hs with ⟨_, _, _, _, _, ha⟩ | ⟨_, _, _, _, _, _, ha, _, _⟩
        · exact absurd ha.lt.1 (Nat.lt_irrefl 0)
        · exact absurd ha.lt.1 (Nat.lt_irrefl 0)
      | raise e => cases hr) hn (by simp)
  exact ⟨st, X, by rw [hg, ok_bind, hst, ok_bind]⟩

end Building

end Append

end Viper
