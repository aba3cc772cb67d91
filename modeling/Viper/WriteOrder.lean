import Viper.PairRetry

/-!
# The write order of algorithms 2 and 11 (`--ww_order`)

With the option on, the edge-weight checker orders every two writers of a key once
more, this time without timestamps. The polygraph orders them already, so that the
option never changes a verdict, neither on the graph of the builder nor on a copy
that keeps its pairs and has more edges.
-/
namespace Viper

open Py GraphSat

namespace MonoSATEdgeWeightSIChecker

variable {n : Nat} {E : List Edge} {P : List (Edge × Edge)} {κ : Type}

theorem encodes_assertWriteOrder (β : Nat → Nat) (q : Nat × Nat) :
    Encodes (fun st => assertWriteOrder st q) β (fun H => H q.1 q.2 0 ∨ H q.2 q.1 0) := by
  have h :=
    encodes_xor [(q.1, q.2, type2weight .ww)] [(q.2, q.1, type2weight .ww)] (by simp) (by simp)
    (fun m => demands_lit m β) (fun m => demands_lit m β)
  have he : (fun st => assertWriteOrder st q) = fun st => extend st
      ([(q.1, q.2, type2weight .ww)] ++ [(q.2, q.1, type2weight .ww)])
      (.xor (.lit st.edges.length)
        (.lit (st.edges.length + [(q.1, q.2, type2weight .ww)].length))) := by
    funext st
    simp [assertWriteOrder, extend, Solver.assert, Solver.addEdge]
  rw [he]
  refine ⟨h.keeps, fun hs H => ?_, h.bvs⟩
  have hone : ∀ u v : Nat, (∀ u' v' w, (u', v', w) ∈ [(u, v, type2weight .ww)] → H u' v' w) ↔
      H u v 0 := by
    intro u v
    constructor
    · intro h
      exact h _ _ _ (List.mem_singleton.mpr rfl)
    · intro h u' v' w hm
      cases List.mem_singleton.mp hm
      exact h
  rw [h.within hs, hone, hone, and_true, and_true]

/-- The write order adds one choice for every two writers to a model. -/
theorem satisfiable_some_iff (d : Dict κ (List Nat)) : Satisfiable (check n E P (some d)) ↔
    ∃ β H, Model n E P β H ∧ ∀ q ∈ writerPairs (some d), H q.1 q.2 0 ∨ H q.2 q.1 0 := by
  let st₀ : Solver := (List.range n).foldl addTimestamps newSolver
  let step : Solver → Solver :=
    fun st => (writerPairs (some d)).foldl assertWriteOrder (P.foldl assertTimedXor
    (E.foldl assertTimed
      ((pairsOf (List.range (2 * n))).foldl (fun st q => st.assert (.bvNe q.1 q.2)) st)))
  have henc : ∀ β, Encodes step β _ := fun β =>
    (((Encodes.foldl (l := pairsOf (List.range (2 * n)))
      (fun q _ => encodes_bv (f := .bvNe q.1 q.2) trivial β)).comp
      (Encodes.foldl (l := E) (fun e _ => encodes_assertTimed β e))).comp
      (Encodes.foldl (l := P) (fun p _ => encodes_assertTimedXor β p))).comp
      (Encodes.foldl (l := writerPairs (some d)) (fun q _ => encodes_assertWriteOrder β q))
  have hcheck : check n E P (some d) =
      { step st₀ with asserts := (step st₀).asserts ++
        (pairsOf (List.range n)).map noShortCycle } := by
    rw [← foldl_assert, List.foldl_map]
    rfl
  have hanti : ∀ g ∈ (pairsOf (List.range n)).map noShortCycle, Antitone g := by
    intro g hg
    obtain ⟨q, _, rfl⟩ := List.mem_map.mp hg
    exact antitone_distances q.1 q.2 0 q.2 q.1 1
  rw [hcheck, satisfiable_iff ((henc (fun _ => 0)).keeps scoped_timestamps) _ hanti]
  apply exists_congr
  intro β
  have hwidth : InWidth (step st₀) β ↔ _ := inWidth_timestamps ((henc β).bvs st₀)
  simp only [hwidth, (henc β).within scoped_timestamps, st₀, within_timestamps, List.mem_map,
    forall_exists_index, and_imp, forall_apply_eq_imp_iff₂]
  constructor
  · intro h
    obtain ⟨hw, H, ⟨hb, ⟨⟨hd, hk⟩, hp⟩, hq⟩, hs⟩ := h
    exact ⟨H, ⟨hw, hb, distinct_timestamps.mp hd, hk, hp, hs⟩, hq⟩
  · intro h
    obtain ⟨H, hm, hq⟩ := h
    exact ⟨hm.width, H,
      ⟨hm.begins, ⟨⟨distinct_timestamps.mpr hm.distinct, hm.known⟩, hm.pairs⟩, hq⟩, hm.short⟩

/-- Writers that the pairs hold apart need no further order. -/
theorem satisfiable_writeOrder_iff (hP : Paired n E P) {d : Dict κ (List Nat)}
    (hd : ∀ q ∈ writerPairs (some d), ApartIn P q.1 q.2 ∧ q.1 < n ∧ q.2 < n) :
    Satisfiable (check n E P (some d)) ↔
      Satisfiable (check n E P (none : Option (Dict κ (List Nat)))) := by
  rw [satisfiable_some_iff, satisfiable_iff_model]
  constructor
  · intro h
    obtain ⟨β, H, hm, _⟩ := h
    exact ⟨β, H, hm⟩
  · intro h
    obtain ⟨β, H, hm⟩ := h
    obtain ⟨_, ho⟩ := hm.exists_order
    refine ⟨_, _, model_of_order hP ho hm.size, ?_⟩
    intro q hq
    obtain ⟨ha, h₁, h₂⟩ := hd q hq
    cases ho.apart ha with
    | inl hlt => exact .inl ⟨h₁, .inl ⟨rfl, hlt⟩⟩
    | inr hlt => exact .inr ⟨h₂, .inl ⟨rfl, hlt⟩⟩

end MonoSATEdgeWeightSIChecker

section Writers

variable {κ : Type} [LinearOrder κ] [ToString κ] {o : SetOrder} {H : List (Entry (Mop κ Value))}
  {histories : List (List (Entry (Mop κ Value)))} {strongSession hasFinal : Bool} {t : Tables κ}
  {G : ArgumentedPolyGraph κ}

/-- The plain builder holds every two writers of a key apart. -/
theorem AdyaSI.Built.writers_apart (hb : Built o H histories strongSession hasFinal t G)
    (o' : SetOrder) :
    ∀ q ∈ writerPairs (some G.extKey2writes),
      ApartIn (o'.iter G.edgePairs) q.1 q.2 ∧ q.1 < G.nNodes ∧ q.2 < G.nNodes := by
  intro q hq
  obtain ⟨hne, k, v, v', h₁, h₂⟩ := (hb.writers.pairs q.1 q.2).mp (.inl hq)
  rw [hb.nNodes]
  refine ⟨?_, h₁.lt.2, h₂.lt.2⟩
  have hpair := (hb.pairs ⟨q.1, q.2, .ww⟩ ⟨q.2, q.1, .ww⟩).mpr
    (.inr (.inr ⟨q.1, q.2, k, v, v', h₁, h₂, hne, rfl, rfl⟩))
  simpa only [ApartIn, SetOrder.mem_iter, ArgumentedPolyGraph.HasPair] using hpair

/-- On a graph of the plain builder the write order changes no answer. -/
theorem AdyaSI.Built.solve_writeOrder (hb : Built o H histories strongSession hasFinal t G)
    (ht : t.Of H) (monosat : Oracle) :
    monosat.solve (MonoSATEdgeWeightSIChecker.check G.nNodes (G.edgeList o) (o.iter G.edgePairs)
      (some G.extKey2writes)) =
      monosat.solve (MonoSATEdgeWeightSIChecker.check G.nNodes (G.edgeList o) (o.iter G.edgePairs)
        (none : Option (Dict κ (List Nat)))) := by
  rw [Bool.eq_iff_iff, monosat.solve_iff, monosat.solve_iff]
  exact MonoSATEdgeWeightSIChecker.satisfiable_writeOrder_iff (hb.paired ht) (hb.writers_apart o)

/-- The option `--ww_order` never changes the answer of algorithm 2. -/
theorem algo2_writeOrder (o : SetOrder) (monosat : Oracle) (H : List (Entry (Mop κ Value)))
    (histories : List (List (Entry (Mop κ Value)))) (strongSession hasFinal : Bool) :
    mainAlgo0124 o (AdyaSI.constructGraphFromLog o H histories strongSession hasFinal)
        (fun n edges edgePairs w =>
          .ok (monosat.solve (MonoSATEdgeWeightSIChecker.check n edges edgePairs w))) 2 true =
      mainAlgo0124 o (AdyaSI.constructGraphFromLog o H histories strongSession hasFinal)
        (fun n edges edgePairs w =>
          .ok (monosat.solve (MonoSATEdgeWeightSIChecker.check n edges edgePairs w))) 2 false := by
  cases hG : AdyaSI.constructGraphFromLog o H histories strongSession hasFinal with
  | error e => simp only [mainAlgo0124, error_bind]
  | ok G =>
    obtain ⟨t, ht, hb⟩ := AdyaSI.built_of_ok hG
    simp only [mainAlgo0124, ok_bind, ArgumentedPolyGraph.get4tuples]
    exact congrArg (fun b => catchReject (.ok b)) (hb.solve_writeOrder ht monosat)

end Writers

namespace PairHeuristic

variable {κ : Type} {o : SetOrder} {k : ℚ} {nid2rank : Dict Nat Nat}

theorem addEdge_extKey2writes {g g' : ArgumentedPolyGraph κ} {src dst : Nat} {type : EdgeType}
    (h : g.addEdge src dst type = .ok g') : g'.extKey2writes = g.extKey2writes := by
  simp only [ArgumentedPolyGraph.addEdge, bind_eq_ok] at h
  obtain ⟨_, _, _, _, _, _, h⟩ := h
  split at h
  · cases h
  · split at h
    · cases h
      rfl
    · split at h
      · cases h
        rfl
      · cases h
        rfl

/-- The loop over the pairs leaves the writers alone. -/
theorem boundPairs_extKey2writes {ps : List (Edge × Edge)} {g g' : ArgumentedPolyGraph κ}
    {iterConn : List (Edge × Edge)}
    {ret : Bool} (h : boundPairs k nid2rank ps g iterConn = .ok (ret, g')) :
    g'.extKey2writes = g.extKey2writes := by
  induction ps generalizing g iterConn with
  | nil =>
    cases h
    rfl
  | cons p ps ih =>
    simp only [boundPairs, bind_eq_ok] at h
    obtain ⟨ret1, _, ret2, _, h⟩ := h
    split at h
    · cases h
      rfl
    · split at h
      · simp only [bind_eq_ok] at h
        obtain ⟨_, _, g₁, hadd, h⟩ := h
        exact (ih h).trans (addEdge_extKey2writes hadd)
      · split at h
        · simp only [bind_eq_ok] at h
          obtain ⟨_, _, g₁, hadd, h⟩ := h
          exact (ih h).trans (addEdge_extKey2writes hadd)
        · exact ih h

end PairHeuristic

section Loop

variable {κ : Type} {o : SetOrder} {g : ArgumentedPolyGraph κ} {nid2rank : Dict Nat Nat}

/-- An attempt of algorithm 11 does not depend on the option. -/
theorem PairPrunable.attemptPairs_writeOrder (hg : PairPrunable o g) (hr : Ranked g.nNodes nid2rank)
    (hw : ∀ q ∈ writerPairs (some g.extKey2writes),
      ApartIn (o.iter g.edgePairs) q.1 q.2 ∧ q.1 < g.nNodes ∧ q.2 < g.nNodes)
    (monosat : Oracle) (st : Attempt) :
    attemptPairs o (fun n edges cons w =>
      monosat.solve (MonoSATEdgeWeightSIChecker.check n edges cons w)) 11 true g
        nid2rank st =
      attemptPairs o (fun n edges cons w =>
        monosat.solve (MonoSATEdgeWeightSIChecker.check n edges cons w)) 11 false g
        nid2rank st := by
  obtain ⟨ret, g', hrun, hadd⟩ := hg.kBoundedConstraints_total hr st.k
  simp only [attemptPairs, hrun, ok_bind, ArgumentedPolyGraph.get4tuples]
  cases ret with
  | false => rfl
  | true =>
    obtain ⟨_, hP⟩ := hg.added (hadd rfl)
    have hwrites :=
      PairHeuristic.boundPairs_extKey2writes (PairHeuristic.kBoundedConstraints_eq_ok.mp hrun).1
    have hsame : monosat.solve
        (MonoSATEdgeWeightSIChecker.check g'.nNodes (g'.edgeList o) (o.iter g'.edgePairs)
          (some g'.extKey2writes)) =
        monosat.solve
          (MonoSATEdgeWeightSIChecker.check g'.nNodes (g'.edgeList o) (o.iter g'.edgePairs)
          (none : Option (Dict κ (List Nat)))) := by
      rw [Bool.eq_iff_iff, monosat.solve_iff, monosat.solve_iff]
      apply MonoSATEdgeWeightSIChecker.satisfiable_writeOrder_iff hP
      rw [hwrites, (hadd rfl).edgePairs, (hadd rfl).nNodes]
      exact hw
    simp [hsame]

variable [LinearOrder κ] [ToString κ]

/-- So does the whole loop, on a graph of the plain builder. -/
theorem AdyaSI.mainAlgo012Heuristic_writeOrder {H : List (Entry (Mop κ Value))}
    {histories : List (List (Entry (Mop κ Value)))} {strongSession hasFinal : Bool}
    {G : ArgumentedPolyGraph κ} (hids : ∀ txns ∈ histories, ∀ e ∈ txns, e.id < H.length)
    (hG : constructGraphFromLog o H histories strongSession hasFinal = .ok G)
    (monosat : Oracle) {fuel : Nat} (hf : 2 * G.nNodes < fuel) :
    mainAlgo012Heuristic fuel o (.ok G)
        (fun n edges cons w => monosat.solve (MonoSATEdgeWeightSIChecker.check n edges cons w))
          11 true =
      mainAlgo012Heuristic fuel o (.ok G)
        (fun n edges cons w => monosat.solve (MonoSATEdgeWeightSIChecker.check n edges cons w))
          11 false := by
  obtain ⟨t, ht, hb⟩ := built_of_ok hG
  have hg := pairPrunable_of_ok hids hG
  cases ArgumentedPolyGraph.myTopoSort_cases o hg.bounded.inRange fuel (by omega) with
  | inl h =>
    obtain ⟨_, nid2rank, arr, hsort, hr⟩ := h
    have hbody := funext (hg.attemptPairs_writeOrder hr (hb.writers_apart o) monosat)
    simp only [mainAlgo012Heuristic, fueled_ok_bind, hsort, hbody]
  | inr h => simp only [mainAlgo012Heuristic, fueled_ok_bind, h.2, fueled_error_bind]

/-- The option `--ww_order` never changes the answer of algorithm 11. -/
theorem algo11_writeOrder (o : SetOrder) (monosat : Oracle) (H : List (Entry (Mop κ Value)))
    (histories : List (List (Entry (Mop κ Value)))) (strongSession hasFinal : Bool)
    (hids : ∀ txns ∈ histories, ∀ e ∈ txns, e.id < H.length) : ∃ enough, ∀ fuel, enough ≤ fuel →
    mainAlgo012Heuristic fuel o (AdyaSI.constructGraphFromLog o H histories strongSession hasFinal)
        (fun n edges cons w => monosat.solve (MonoSATEdgeWeightSIChecker.check n edges cons w))
          11 true =
      mainAlgo012Heuristic fuel o
        (AdyaSI.constructGraphFromLog o H histories strongSession hasFinal)
        (fun n edges cons w => monosat.solve (MonoSATEdgeWeightSIChecker.check n edges cons w))
          11 false := by
  cases hG : AdyaSI.constructGraphFromLog o H histories strongSession hasFinal with
  | error e => exact ⟨0, fun _ _ => by simp only [mainAlgo012Heuristic, fueled_error_bind]⟩
  | ok G =>
    refine ⟨2 * G.nNodes + 1, ?_⟩
    intro fuel hf
    exact AdyaSI.mainAlgo012Heuristic_writeOrder hids hG monosat hf

theorem algo11_writeOrder_small : (∀ txns ∈ smallSessions, ∀ e ∈ txns, e.id < smallHistory.length) ∧
    ∃ enough, ∀ fuel, enough ≤ fuel →
      mainAlgo012Heuristic fuel .stored
        (AdyaSI.constructGraphFromLog .stored smallHistory smallSessions true false)
          (fun n edges cons w =>
            Oracle.exact.solve (MonoSATEdgeWeightSIChecker.check n edges cons w)) 11 true =
        mainAlgo012Heuristic fuel .stored
          (AdyaSI.constructGraphFromLog .stored smallHistory smallSessions true false)
          (fun n edges cons w =>
            Oracle.exact.solve (MonoSATEdgeWeightSIChecker.check n edges cons w)) 11 false :=
  have hids : ∀ txns ∈ smallSessions, ∀ e ∈ txns, e.id < smallHistory.length := by decide
  ⟨hids, algo11_writeOrder .stored .exact smallHistory smallSessions true false hids⟩

end Loop

end Viper
