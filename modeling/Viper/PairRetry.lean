import Viper.PairHeuristic
import Viper.Z3Checkers

/-!
# Retrying with decided pairs (`main_algo_0_1_2_heuristic`)

Algorithms 10 and 11 retry as the chain-based ones do. The checker gets a copy
of the graph with more known edges and the same pairs, so a yes is right for the
graph itself, for any checker that decides whether an order respects its tuple.
-/
namespace Viper

open Py PairHeuristic

section Definitions

variable {κ : Type}

/-- The body of the loop. -/
def attemptPairs (o : SetOrder)
    (check : Nat → List Edge → List (Edge × Edge) → Option (Dict κ (List Nat)) → Bool)
    (ALGO : Nat) (wwOrder : Bool) (g : ArgumentedPolyGraph κ) (nid2rank : Dict Nat Nat)
    (st : Attempt) :
    Except Err Attempt := do
  let (ret, g, iterG) ← PairHeuristic.kBoundedConstraints o st.k g g nid2rank
  let (n, edges, cons, extWrites) := iterG.get4tuples o
  let result := if ret then
      check n edges cons
        (if wwOrder = false ∧ (ALGO = 10 ∨ ALGO = 11) then none else some extWrites)
    else false
  if st.k = nNodesBc g - 1 then .ok ⟨result, st.k, st.ithK + 1, true⟩
  else
    let k := if st.k + tenth g < nNodesBc g then st.k + tenth g else nNodesBc g - 1
    .ok ⟨result, k, st.ithK + 1, false⟩

def mainAlgo012Heuristic (fuel : Nat) (o : SetOrder)
    (graphConstructor : Except Err (ArgumentedPolyGraph κ))
    (check : Nat → List Edge → List (Edge × Edge) → Option (Dict κ (List Nat)) → Bool) (ALGO : Nat)
    (wwOrder : Bool) :
    Option (Except Err Bool) :=
  let result : ExceptT Err Option Bool := do
    let g ← fueled graphConstructor
    let (nid2rank, _) ← g.myTopoSort fuel o
    fueled (require (nid2rank.entries.length = g.nNodes * 2) "")
    let st ← whileLoop (Attempt.again g) (attemptPairs o check ALGO wwOrder g nid2rank) fuel
      ⟨false, tenth g, 1, false⟩
    fueled (.ok st.result)
  result.run.map catchReject

/-- A decision procedure for the assertions about timestamps and dependencies. -/
structure Z3Oracle where
  solve : List (AdyaModel → Prop) → Bool
  solve_iff : ∀ fs, solve fs = true ↔ Sat fs

open Classical in
/-- The ideal solver. -/
noncomputable def Z3Oracle.exact : Z3Oracle :=
  ⟨fun fs => decide (Sat fs), fun _ => decide_eq_true_iff⟩

end Definitions

section Tuples

variable {n : Nat} {E E' : List Edge} {P : List (Edge × Edge)}

/-- More known edges keep the pairs tied to their readers. -/
theorem Paired.mono (h : Paired n E P) (hE : ∀ e ∈ E, ∃ e' ∈ E', e'.before = e.before)
    (hsrc : ∀ e ∈ E', e.src < n) (hdst : ∀ e ∈ E', e.dst ≠ 0) : Paired n E' P := by
  have hknown : ∀ {a b}, (∃ e ∈ E, e.before = (a, b)) → ∃ e ∈ E', e.before = (a, b) := by
    rintro a b ⟨e, he, hb⟩
    obtain ⟨e', he', hb'⟩ := hE e he
    exact ⟨e', he', hb'.trans hb⟩
  refine ⟨h.pos, hsrc, hdst, fun i hi hn => hknown (h.first i hi hn), fun p hp => ?_⟩
  rcases h.pairs p hp with ⟨x, i, j, hs, hor⟩ | hw
  · exact .inl ⟨x, i, j, ⟨hs.lt, hs.ne, hs.pos, hknown hs.known, hs.apart⟩, hor⟩
  · exact .inr hw

theorem PairOrder.mono [LinearOrder Event] (h : PairOrder n E' P)
    (hE : ∀ e ∈ E, ∃ e' ∈ E', e'.before = e.before) :
    PairOrder n E P where
  begins := h.begins
  known e he := by
    obtain ⟨e', he', hb⟩ := hE e he
    exact (h.known e' he').lt hb
  pairs := h.pairs

/-- The edges of a constraint lie in the history and pass their assertions. -/
theorem Paired.valid (h : Paired n E P) {p : Edge × Edge} (hp : p ∈ P) :
    ((Cmd.edge p.1).Valid n ∧ p.1.dst < n) ∧ (Cmd.edge p.2).Valid n ∧ p.2.dst < n := by
  rcases h.pairs p hp with ⟨x, i, j, hs, rfl | rfl⟩ | ⟨i, j, hi, hj, hne, hi0, hj0, rfl⟩
  · exact ⟨⟨⟨hs.ne.1, hs.pos.2, hs.lt.1⟩, hs.lt.2.1⟩, ⟨hs.ne.2.symm, hs.pos.1, hs.lt.2.2⟩, hs.lt.1⟩
  · exact ⟨⟨⟨hs.ne.2.symm, hs.pos.1, hs.lt.2.2⟩, hs.lt.1⟩, ⟨hs.ne.1, hs.pos.2, hs.lt.1⟩, hs.lt.2.1⟩
  · exact ⟨⟨⟨hne, hj0, hi⟩, hj⟩, ⟨hne.symm, hi0, hj⟩, hi⟩

/-- Without a write order, the checker says yes iff an order respects the tuple and
the history is not too long for it. -/
def DecidesOrder {κ : Type}
    (check : Nat → List Edge → List (Edge × Edge) → Option (Dict κ (List Nat)) → Bool) : Prop :=
  ∃ size : Nat → Prop, ∀ n E P, Paired n E P →
    (check n E P none = true ↔ size n ∧ ∃ _ : LinearOrder Event, PairOrder n E P)

theorem decidesOrder_z301 {κ : Type} (z3 : Z3Oracle) :
    DecidesOrder
      (fun n E P (w : Option (Dict κ (List Nat))) => z3.solve (Z301Checker.check n E P w)) := by
  refine ⟨fun _ => True, fun n E P hP => ?_⟩
  rw [z3.solve_iff, true_and]
  exact ⟨Z301Checker.exists_order, fun ⟨_, h⟩ => Z301Checker.sat_of_order hP h⟩

theorem decidesOrder_edgeWeight {κ : Type} (monosat : GraphSat.Oracle) :
    DecidesOrder (fun n E P (w : Option (Dict κ (List Nat))) =>
      monosat.solve (MonoSATEdgeWeightSIChecker.check n E P w)) :=
  ⟨fun n => 2 * n ≤ 2 ^ MONO_BV_WIDTH, fun _ _ _ hP =>
    (monosat.solve_iff _).trans (MonoSATEdgeWeightSIChecker.satisfiable_iff_order hP)⟩

end Tuples

section Ranks

variable {n : Nat} {nid2rank : Dict Nat Nat} (hr : Ranked n nid2rank)
include hr

theorem pickThisEdgePair_spec (k : ℚ) {e : Edge} (hsrc : e.src < n) (hdst : e.dst < n) :
    ∃ r r', r < 2 * n ∧ r' < 2 * n ∧
      pickThisEdgePair e k nid2rank = .ok (decide ((r : ℚ) + k < (r' : ℚ))) := by
  obtain ⟨r, r', hlt, hlt', h, h'⟩ := hr.scores hsrc hdst
  refine ⟨r, r', hlt, hlt', ?_⟩
  obtain ⟨src, dst, type⟩ := e
  cases type <;> simp only [Edge.before, Event.num] at h h' <;>
    simp only [pickThisEdgePair, h, h', ok_bind]

/-- With the largest `k` no side is picked. -/
theorem pickThisEdgePair_last {e : Edge} (hsrc : e.src < n) (hdst : e.dst < n) :
    pickThisEdgePair e (2 * n - 1) nid2rank = .ok false := by
  obtain ⟨r, r', _, hlt, he⟩ := pickThisEdgePair_spec hr (2 * n - 1) hsrc hdst
  rw [he, decide_eq_false (not_spans_all hlt)]

end Ranks

section Loop

variable {κ : Type} {o : SetOrder} {g : ArgumentedPolyGraph κ} {nid2rank : Dict Nat Nat}
  {check : Nat → List Edge → List (Edge × Edge) → Option (Dict κ (List Nat)) → Bool} {ALGO : Nat}

/-- What the builder guarantees about the graph. -/
structure PairPrunable (o : SetOrder) (g : ArgumentedPolyGraph κ) : Prop where
  bounded : g.Bounded
  paired : Paired g.nNodes (g.edgeList o) (o.iter g.edgePairs)

variable (hg : PairPrunable o g)
include hg

/-- Added sides leave the tuple of the graph paired, with more known edges. -/
theorem PairPrunable.added {k : ℚ} {ps : List (Edge × Edge)} {g' : ArgumentedPolyGraph κ}
    (h : Added k nid2rank ps g g') :
    (∀ e ∈ g.edgeList o, ∃ e' ∈ g'.edgeList o, e'.before = e.before) ∧
      Paired g'.nNodes (g'.edgeList o) (o.iter g'.edgePairs) := by
  have hinv := h.inv hg.bounded.inv
  have hE : ∀ e ∈ g.edgeList o, ∃ e' ∈ g'.edgeList o, e'.before = e.before := by
    intro e he
    obtain ⟨src, dst, type, hm, hb⟩ := (h.before e.before.1 e.before.2).mpr
      (.inl ⟨e.src, e.dst, e.type, ((g.mem_edgeList o e).mp he).2, rfl⟩)
    exact ⟨⟨src, dst, type⟩, (g'.mem_edgeList o _).mpr ⟨hinv.src_lt hm, hm⟩, hb⟩
  refine ⟨hE, ?_⟩
  rw [h.nNodes, h.edgePairs]
  refine hg.paired.mono hE (fun e he => ?_) (fun e he => ?_)
  · rw [← h.nNodes]
    exact ((g'.mem_edgeList o e).mp he).1
  · exact hinv.dst_ne ((g'.mem_edgeList o e).mp he).2

variable (hr : Ranked g.nNodes nid2rank) (hd : DecidesOrder check) (hA : ALGO = 10 ∨ ALGO = 11)
include hr

/-- Only a contradiction keeps the loop from passing a pair. -/
theorem PairPrunable.kBoundedConstraints_total (k : ℚ) : ∃ ret g',
    PairHeuristic.kBoundedConstraints o k g g nid2rank = .ok (ret, g, g') ∧
      (ret = true → Added k nid2rank (o.iter g.edgePairs) g g') := by
  have hpassed : ∀ p ∈ o.iter g.edgePairs,
      ¬ Blocked g.nNodes k nid2rank p ∨ (Picked k nid2rank p.1 ∧ Picked k nid2rank p.2) := by
    intro p hp
    obtain ⟨⟨hv₁, hd₁⟩, hv₂, hd₂⟩ := hg.paired.valid hp
    obtain ⟨r₁, r₁', _, _, h₁⟩ := pickThisEdgePair_spec hr k hv₁.2.2 hd₁
    obtain ⟨r₂, r₂', _, _, h₂⟩ := pickThisEdgePair_spec hr k hv₂.2.2 hd₂
    by_cases hb : Blocked g.nNodes k nid2rank p
    · right
      cases hb with
      | first hn => exact absurd h₁ (hn _)
      | second hn => exact absurd h₂ (hn _)
      | both hp₁ hp₂ => exact ⟨hp₁, hp₂⟩
      | addFirst _ hn => exact absurd hv₁ hn
      | addSecond _ hn => exact absurd hv₂ hn
    · exact .inl hb
  obtain ⟨ret, g', hrun, hadd, _⟩ :=
    boundPairs_total (List.Subperm.refl (o.iter g.edgePairs)) hpassed
  exact ⟨ret, g', kBoundedConstraints_eq_ok.mpr ⟨hrun, rfl⟩, hadd⟩

/-- With the largest `k` the copy stays as it is. -/
theorem PairPrunable.kBoundedConstraints_last :
    PairHeuristic.kBoundedConstraints o (2 * g.nNodes - 1) g g nid2rank = .ok (true, g, g) := by
  have hloop : ∀ ps iterConn : List (Edge × Edge), (∀ p ∈ ps, p ∈ o.iter g.edgePairs) →
      boundPairs (2 * g.nNodes - 1) nid2rank ps g iterConn = .ok (true, g) := by
    intro ps iterConn
    induction ps with
    | nil => exact fun _ => rfl
    | cons p ps ih =>
      intro hps
      obtain ⟨⟨hv₁, hd₁⟩, hv₂, hd₂⟩ := hg.paired.valid (hps p List.mem_cons_self)
      have h₁ := pickThisEdgePair_last hr hv₁.2.2 hd₁
      have h₂ := pickThisEdgePair_last hr hv₂.2.2 hd₂
      simpa [boundPairs, h₁, h₂] using ih (fun q hq => hps q (List.mem_cons_of_mem p hq))
  exact kBoundedConstraints_eq_ok.mpr ⟨hloop _ _ (fun _ hp => hp), rfl⟩

include hd hA

/-- The last attempt decides the graph itself, any other says yes only if the graph does. -/
theorem PairPrunable.retries : Retries g (attemptPairs o check ALGO false g nid2rank)
    (check g.nNodes (g.edgeList o) (o.iter g.edgePairs) none) where
  last st hk := by
    have hkeep : PairHeuristic.kBoundedConstraints o st.k g g nid2rank = .ok (true, g, g) := by
      rw [hk, nNodesBc, mul_comm]
      exact hg.kBoundedConstraints_last hr
    simp only [attemptPairs, hkeep, ok_bind, ArgumentedPolyGraph.get4tuples, hA, and_self,
      if_true, if_pos hk]
  next st hk := by
    obtain ⟨ret, g', hrun, hadd⟩ := hg.kBoundedConstraints_total hr st.k
    refine ⟨if ret then check g'.nNodes (g'.edgeList o) (o.iter g'.edgePairs) none
      else false, ?_, ?_⟩
    · cases ret with
      | false =>
        intro h
        exact absurd h Bool.false_ne_true
      | true =>
        obtain ⟨size, hsize⟩ := hd
        obtain ⟨hE, hP⟩ := hg.added (hadd rfl)
        simp only [if_true]
        rw [hsize _ _ _ hP, hsize _ _ _ hg.paired, (hadd rfl).nNodes, (hadd rfl).edgePairs]
        intro h
        obtain ⟨hn, lo, h⟩ := h
        exact ⟨hn, lo, h.mono hE⟩
    · simp only [attemptPairs, hrun, ok_bind, ArgumentedPolyGraph.get4tuples, hA, and_self,
        if_true, if_neg hk]

omit hr hA in
/-- Without a sort of the known edges there is no order. -/
theorem PairPrunable.rejects_cycle (hc : ¬ Precedence.Acyclic g.KnownBC) :
    check g.nNodes (g.edgeList o) (o.iter g.edgePairs) none = false := by
  obtain ⟨size, hsize⟩ := hd
  rw [← Bool.not_eq_true, hsize _ _ _ hg.paired]
  rintro ⟨_, lo, h⟩
  exact hc (ArgumentedPolyGraph.acyclic_knownBC hg.bounded.inv h.begins h.known)

omit hr in
/-- With enough fuel the retry loop gives the verdict on the graph itself, and only
a graph without a solution is rejected while sorting. -/
theorem PairPrunable.mainAlgo012Heuristic_eq {fuel : Nat} (hf : 2 * g.nNodes + 10 < fuel) :
    mainAlgo012Heuristic fuel o (.ok g) check ALGO false =
        some (.ok (check g.nNodes (g.edgeList o) (o.iter g.edgePairs) none)) ∧
      ∀ msg, g.myTopoSort fuel o = fueled (.error (.reject msg)) →
        check g.nNodes (g.edgeList o) (o.iter g.edgePairs) none = false := by
  have hpos := hg.paired.pos
  rcases ArgumentedPolyGraph.myTopoSort_cases o hg.bounded.inRange fuel (by omega) with
    ⟨_, nid2rank, arr, hsort, hr⟩ | ⟨hc, hsort⟩
  · obtain ⟨st, hloop, hresult⟩ := (hg.retries hr hd hA).loop hpos fuel (by omega)
    have hsize : nid2rank.entries.length = g.nNodes * 2 := by rw [hr.size, Nat.mul_comm]
    constructor
    · simp only [mainAlgo012Heuristic, fueled_ok_bind, hsort, require, hsize, decide_true, if_true,
        hloop, hresult]
      rfl
    · intro msg hrej
      rw [hsort] at hrej
      cases hrej
  · have hno := hg.rejects_cycle hd hc
    constructor
    · simp only [mainAlgo012Heuristic, fueled_ok_bind, hsort, fueled_error_bind, hno]
      rfl
    · exact fun _ _ => hno

end Loop

section Main

variable {κ : Type} [LinearOrder κ] [ToString κ] {o : SetOrder} {H : List (Entry (Mop κ Value))}
  {histories : List (List (Entry (Mop κ Value)))} {strongSession hasFinal : Bool} {t : Tables κ}
  {G : ArgumentedPolyGraph κ}

/-- What the plain builder returns is input for the heuristic. -/
theorem AdyaSI.pairPrunable_of_ok (hids : ∀ txns ∈ histories, ∀ e ∈ txns, e.id < H.length)
    (hG : constructGraphFromLog o H histories strongSession hasFinal = .ok G) :
    PairPrunable o G := by
  obtain ⟨t, ht, hb⟩ := built_of_ok hG
  refine ⟨bounded_of hb.inv (histories_of_ok hG) (hb.nNodes ▸ hids) (fun a b hab => ?_),
    hb.paired ht⟩
  obtain ⟨e, he, hk⟩ := (hb.before a b).mp hab
  exact ⟨e, he, hb.nNodes ▸ AdyaSIChain.known_dst_lt ht hids hk⟩

/-- Algorithms 10 and 11 without a write order end with the verdict of their checkers
on the graph itself, and only a graph without a solution is rejected while sorting. -/
theorem mainAlgo012Heuristic_iff_check (o : SetOrder) (H : List (Entry (Mop κ Value)))
    (histories : List (List (Entry (Mop κ Value)))) (strongSession hasFinal : Bool)
    (G : ArgumentedPolyGraph κ) (hids : ∀ txns ∈ histories, ∀ e ∈ txns, e.id < H.length)
    (hG : AdyaSI.constructGraphFromLog o H histories strongSession hasFinal = .ok G) (z3 : Z3Oracle)
    (monosat : GraphSat.Oracle) : ∃ enough, ∀ fuel, enough ≤ fuel →
      (∃ r, mainAlgo012Heuristic fuel o (.ok G)
        (fun n edges cons w => z3.solve (Z301Checker.check n edges cons w)) 10 false =
          some (.ok r) ∧
        (r = true ↔
          Sat (Z301Checker.check G.nNodes (G.edgeList o) (o.iter G.edgePairs)
            (none : Option (Dict κ (List Nat)))))) ∧
      (∃ r, mainAlgo012Heuristic fuel o (.ok G)
            (fun n edges cons w => monosat.solve (MonoSATEdgeWeightSIChecker.check n edges cons w))
              11 false = some (.ok r) ∧
        (r = true ↔ GraphSat.Satisfiable
          (MonoSATEdgeWeightSIChecker.check G.nNodes (G.edgeList o) (o.iter G.edgePairs)
          (none : Option (Dict κ (List Nat)))))) ∧
      ∀ msg, G.myTopoSort fuel o = fueled (.error (.reject msg)) →
        ¬ Sat (Z301Checker.check G.nNodes (G.edgeList o) (o.iter G.edgePairs)
          (none : Option (Dict κ (List Nat)))) ∧
          ¬ GraphSat.Satisfiable
            (MonoSATEdgeWeightSIChecker.check G.nNodes (G.edgeList o) (o.iter G.edgePairs)
            (none : Option (Dict κ (List Nat)))) := by
  have hg := AdyaSI.pairPrunable_of_ok hids hG
  have hfuel (fuel : Nat) (hf : 2 * G.nNodes + 11 ≤ fuel) : 2 * G.nNodes + 10 < fuel := by
    omega
  refine ⟨2 * G.nNodes + 11, fun fuel hf => ?_⟩
  obtain ⟨h₁, hrej₁⟩ := hg.mainAlgo012Heuristic_eq (decidesOrder_z301 z3) (.inl rfl) (hfuel fuel hf)
  obtain ⟨h₂, hrej₂⟩ :=
    hg.mainAlgo012Heuristic_eq (decidesOrder_edgeWeight monosat) (.inr rfl) (hfuel fuel hf)
  refine ⟨⟨_, h₁, z3.solve_iff _⟩, ⟨_, h₂, monosat.solve_iff _⟩, fun msg hrej => ⟨?_, ?_⟩⟩
  · rw [← z3.solve_iff, hrej₁ msg hrej]
    exact nofun
  · rw [← monosat.solve_iff, hrej₂ msg hrej]
    exact nofun

theorem mainAlgo012Heuristic_iff_check_small :
    ∃ G, AdyaSI.constructGraphFromLog .stored smallHistory smallSessions true false = .ok G ∧
      (∀ txns ∈ smallSessions, ∀ e ∈ txns, e.id < smallHistory.length) ∧
      ∃ enough, ∀ fuel, enough ≤ fuel →
      (∃ r, mainAlgo012Heuristic fuel .stored (.ok G)
            (fun n edges cons w => Z3Oracle.exact.solve (Z301Checker.check n edges cons w)) 10
              false = some (.ok r) ∧
        (r = true ↔
          Sat (Z301Checker.check G.nNodes (G.edgeList .stored) (SetOrder.stored.iter G.edgePairs)
          (none : Option (Dict Nat (List Nat)))))) ∧
      (∃ r, mainAlgo012Heuristic fuel .stored (.ok G)
            (fun n edges cons w => GraphSat.Oracle.exact.solve
              (MonoSATEdgeWeightSIChecker.check n edges cons w)) 11 false =
          some (.ok r) ∧
        (r = true ↔
          GraphSat.Satisfiable (MonoSATEdgeWeightSIChecker.check G.nNodes (G.edgeList .stored)
          (SetOrder.stored.iter G.edgePairs) (none : Option (Dict Nat (List Nat)))))) ∧
      ∀ msg, G.myTopoSort fuel .stored = fueled (.error (.reject msg)) →
        ¬ Sat (Z301Checker.check G.nNodes (G.edgeList .stored) (SetOrder.stored.iter G.edgePairs)
          (none : Option (Dict Nat (List Nat)))) ∧
          ¬ GraphSat.Satisfiable (MonoSATEdgeWeightSIChecker.check G.nNodes (G.edgeList .stored)
            (SetOrder.stored.iter G.edgePairs) (none : Option (Dict Nat (List Nat)))) := by
  obtain ⟨G, hG⟩ := small_built
  have hids : ∀ txns ∈ smallSessions, ∀ e ∈ txns, e.id < smallHistory.length := by decide
  exact ⟨G, hG, hids, mainAlgo012Heuristic_iff_check .stored smallHistory smallSessions true false G
    hids hG .exact .exact⟩

end Main

end Viper
