import Viper.JsonLogs
import Viper.AppendDecision
import Viper.EdgeWeightOptimized
import Viper.SessionOrder
import Viper.WriteOrder
import Mathlib.Tactic.IntervalCases

/-!
# The main program (`main_allcases.py`)

`get_algo` picks a checker and a graph constructor for the number of an algorithm,
and the main program runs them through one of four entrances. Nothing of this is
checked before it runs: several numbers lead to a combination that raises.
-/
namespace Viper

open Py Parse Numbering

section Raising

variable {κ : Type}

/-- `main_algo3_5` with a checker that may raise. -/
def mainAlgo35Raising (graphConstructor : Except Err (ArgumentedPolyGraph κ × List Constraint))
    (check : ArgumentedPolyGraph κ → List Constraint → Except Err Bool) : Except Err Bool :=
  catchReject do
    let (g, conn) ← graphConstructor
    check g conn

/-- The body of the loop of `main_algo_6_8_12`. -/
def attemptRaising (o : SetOrder)
    (check : ArgumentedPolyGraph κ → List Constraint → Except Err Bool)
    (g : ArgumentedPolyGraph κ) (conn : List Constraint) (nid2rank : Dict Nat Nat)
    (st : Attempt) : Except Err Attempt := do
  let (ret, iterG, iterConn) ← kBoundedConstraints o st.k conn g conn nid2rank
  let result ← if ret then check iterG iterConn else .ok false
  if st.k = nNodesBc g - 1 then .ok ⟨result, st.k, st.ithK + 1, true⟩
  else
    let k := if st.k + tenth g < nNodesBc g then st.k + tenth g else nNodesBc g - 1
    .ok ⟨result, k, st.ithK + 1, false⟩

def mainAlgo6812Raising (fuel : Nat) (o : SetOrder)
    (graphConstructor : Except Err (ArgumentedPolyGraph κ × List Constraint))
    (check : ArgumentedPolyGraph κ → List Constraint → Except Err Bool) :
    Option (Except Err Bool) :=
  let result : ExceptT Err Option Bool := do
    let (g, conn) ← fueled graphConstructor
    let (nid2rank, _) ← g.myTopoSort fuel o
    fueled (require (nid2rank.entries.length = g.nNodes * 2) "")
    let st ← whileLoop (Attempt.again g) (attemptRaising o check g conn nid2rank) fuel
      ⟨false, tenth g, 1, false⟩
    fueled (.ok st.result)
  result.run.map catchReject

/-- The body of the loop of `main_algo_0_1_2_heuristic`. -/
def attemptPairsRaising (o : SetOrder)
    (check : Nat → List Edge → List (Edge × Edge) → Option (Dict κ (List Nat)) → Except Err Bool)
    (ALGO : Nat)
    (wwOrder : Bool) (g : ArgumentedPolyGraph κ) (nid2rank : Dict Nat Nat)
    (st : Attempt) : Except Err Attempt := do
  let (ret, g, iterG) ← PairHeuristic.kBoundedConstraints o st.k g g nid2rank
  let (n, edges, cons, extWrites) := iterG.get4tuples o
  let result ← if ret then
      check n edges cons
        (if wwOrder = false ∧ (ALGO = 10 ∨ ALGO = 11) then none else some extWrites)
    else .ok false
  if st.k = nNodesBc g - 1 then .ok ⟨result, st.k, st.ithK + 1, true⟩
  else
    let k := if st.k + tenth g < nNodesBc g then st.k + tenth g else nNodesBc g - 1
    .ok ⟨result, k, st.ithK + 1, false⟩

def mainAlgo012HeuristicRaising (fuel : Nat) (o : SetOrder)
    (graphConstructor : Except Err (ArgumentedPolyGraph κ))
    (check : Nat → List Edge → List (Edge × Edge) → Option (Dict κ (List Nat)) → Except Err Bool)
    (ALGO : Nat) (wwOrder : Bool) : Option (Except Err Bool) :=
  let result : ExceptT Err Option Bool := do
    let g ← fueled graphConstructor
    let (nid2rank, _) ← g.myTopoSort fuel o
    fueled (require (nid2rank.entries.length = g.nNodes * 2) "")
    let st ← whileLoop (Attempt.again g) (attemptPairsRaising o check ALGO wwOrder g nid2rank) fuel
      ⟨false, tenth g, 1, false⟩
    fueled (.ok st.result)
  result.run.map catchReject

/-- A checker that never raises. -/
theorem mainAlgo6812Raising_ok (fuel : Nat) (o : SetOrder)
    (build : Except Err (ArgumentedPolyGraph κ × List Constraint))
    (check : ArgumentedPolyGraph κ → List Constraint → Bool) :
    mainAlgo6812Raising fuel o build (fun g conn => .ok (check g conn)) =
      mainAlgo6812 fuel o build check := by
  have hbody : attemptRaising (κ := κ) o (fun g conn => .ok (check g conn)) = attempt o check := by
    funext g conn nid2rank st
    rw [attemptRaising, attempt]
    apply congrArg
    funext p
    obtain ⟨ret, iterG, iterConn⟩ := p
    cases ret <;> rfl
  rw [mainAlgo6812Raising, mainAlgo6812, hbody]

theorem mainAlgo012HeuristicRaising_ok (fuel : Nat) (o : SetOrder)
    (build : Except Err (ArgumentedPolyGraph κ))
    (check : Nat → List Edge → List (Edge × Edge) → Option (Dict κ (List Nat)) → Bool) (ALGO : Nat)
    (wwOrder : Bool) :
    mainAlgo012HeuristicRaising fuel o build
      (fun n edges cons w => .ok (check n edges cons w)) ALGO wwOrder =
      mainAlgo012Heuristic fuel o build check ALGO wwOrder := by
  have hbody : attemptPairsRaising (κ := κ) o
      (fun n edges cons w => .ok (check n edges cons w)) ALGO wwOrder =
      attemptPairs o check ALGO wwOrder := by
    funext g nid2rank st
    rw [attemptPairsRaising, attemptPairs]
    apply congrArg
    funext p
    obtain ⟨ret, g', iterG⟩ := p
    cases ret <;> rfl
  rw [mainAlgo012HeuristicRaising, mainAlgo012Heuristic, hbody]

end Raising

section Algorithms

/-- The solvers. Z3 takes assertions on timestamps and relations of transactions,
or on one relation of events. -/
structure Solvers where
  monosat : GraphSat.Oracle
  adya : Z3Oracle
  events : List (Interp → Prop) → Bool
  events_iff : ∀ fs, events fs = true ↔ Sat fs

open Classical in
/-- The ideal solvers. -/
noncomputable def Solvers.exact : Solvers :=
  ⟨.exact, .exact, fun fs => decide (Sat fs), fun _ => decide_eq_true_iff⟩

/-- The classes of checkers. -/
inductive CheckerCls where
  | z3GeneralSI
  | z301
  | edgeWeight
  | edgeWeightOptimized
  | bc
  | bcOptimized
  deriving DecidableEq

/-- The functions `construct_graph_from_log` of the three builders. -/
inductive GraphConstructor where
  | adyaSI
  | adyaSIChain
  | append
  deriving DecidableEq

def algo2checker : List CheckerCls :=
  [.z3GeneralSI, .z301, .edgeWeight, .edgeWeightOptimized, .bc, .bcOptimized, .bcOptimized, .bc,
    .bcOptimized, .z3GeneralSI, .z301, .edgeWeight, .edgeWeightOptimized]

def getAlgo (algoType : Nat) : Except Err (CheckerCls × GraphConstructor) := do
  require (algoType ≤ 12) "Please provide a valid algo type"
  let graphConstructor ← if algoType ∈ [0, 1, 2, 4, 7, 9, 10, 11] then .ok GraphConstructor.adyaSI
    else if algoType ∈ [3, 5, 6, 12] then .ok GraphConstructor.adyaSIChain
    else if algoType ∈ [8] then .ok GraphConstructor.append
    else .error (.assertion "Not implemented yet")
  match algo2checker[algoType]? with
  | none => .error .indexError
  | some checker => .ok (checker, graphConstructor)

variable {κ ν : Type}

/-- `checker.check(n, edges, edge_pairs, ext_writes)` -/
def CheckerCls.check (sv : Solvers) (cls : CheckerCls) (n : Nat) (edges : List Edge)
    (edgePairs : List (Edge × Edge)) (extWrites : Option (Dict κ (List Nat))) : Except Err Bool :=
  match cls with
  | .z301 => .ok (sv.adya.solve (Z301Checker.check n edges edgePairs extWrites))
  | .edgeWeight =>
    .ok (sv.monosat.solve (MonoSATEdgeWeightSIChecker.check n edges edgePairs extWrites))
  | .bc => .ok (sv.monosat.solve (MonoBCPolyGraphChecker.check n edges edgePairs extWrites))
  -- `check(n_nodes, edges, edge_pairs)` and `check(g, conn)` take fewer arguments
  | .z3GeneralSI | .edgeWeightOptimized | .bcOptimized => .error .typeError

/-- `checker.debug(n, edges, edge_pairs, ext_writes)`, which one class has. -/
def CheckerCls.debug (sv : Solvers) (cls : CheckerCls) (n : Nat) (edges : List Edge)
    (edgePairs : List (Edge × Edge)) (extWrites : Option (Dict κ (List Nat))) : Except Err Bool :=
  match cls with
  | .bc => .ok (sv.events (MonoBCPolyGraphChecker.debug n edges edgePairs extWrites))
  | _ => .error .attributeError

/-- `checker.check(g, conn)` -/
def CheckerCls.checkEncoding (o : SetOrder) (sv : Solvers) (cls : CheckerCls)
    (g : ArgumentedPolyGraph κ) (conn : List Constraint) : Except Err Bool :=
  match cls with
  | .bcOptimized => .ok (sv.monosat.solve (MonoBCPolyGraphCheckerOptimized.check o g conn))
  | .edgeWeightOptimized => do
    let st ← MonoSATEdgeWeightSICheckerOptimized.check o g conn
    .ok (sv.monosat.solve st)
  | _ => .error .typeError

/-- What a graph constructor returns. -/
inductive Constructed (κ : Type) where
  | graph (G : ArgumentedPolyGraph κ)
  | encoding (g : ArgumentedPolyGraph κ) (conn : List Constraint)

/-- `G.get_4tuples()` -/
def Constructed.theGraph : Constructed κ → Except Err (ArgumentedPolyGraph κ)
  | .graph G => .ok G
  | .encoding _ _ => .error .attributeError

/-- `g, conn = ...` -/
def Constructed.theEncoding : Constructed κ → Except Err (ArgumentedPolyGraph κ × List Constraint)
  | .graph _ => .error .typeError
  | .encoding g conn => .ok (g, conn)

/-- The log directory: decoded JSON logs, or the file `history.edn`. -/
inductive LogDir (κ ν : Type) where
  | json (logs : List (List (JsonTxn κ)))
  | edn (lines : List (Append.LogTxn κ ν))

variable [LinearOrder κ] [ToString κ] [DecidableEq ν]

def GraphConstructor.construct (o : SetOrder) (c : GraphConstructor) (dir : LogDir κ ν)
    (strongSession hasFinal : Bool) :
    Except Err (Constructed κ) :=
  match c, dir with
  | .adyaSI, .json logs => do
    let G ← AdyaSI.constructGraphFromLogs o logs strongSession hasFinal
    .ok (.graph G)
  | .adyaSIChain, .json logs => do
    let (g, conn) ← AdyaSIChain.constructGraphFromLogs o logs strongSession hasFinal
    .ok (.encoding g conn)
  | .append, .edn lines => do
    let (g, conn) ← Append.constructGraphFromLog o lines strongSession
    .ok (.encoding g conn)
  | .append, .json _ => .error (.assertion "append workload only allows edn format currently")
  -- `load_logs_edn` calls `is_edn_log` without the name of the file
  | .adyaSI, .edn _ | .adyaSIChain, .edn _ => .error .typeError

/-- The ids that `my_topo_sort` reads. The append parser leaves none out. -/
def LogDir.readSortedIds {α : Type} (dir : LogDir κ ν) (a : α) : Except Err α :=
  match dir with
  | .json logs => Viper.readSortedIds logs a
  | .edn _ => .ok a

/-- The main program from the log directory on. -/
def mainAllcases (fuel : Nat) (o : SetOrder) (sv : Solvers) (ALGO : Nat) (dir : LogDir κ ν)
    (strongSession wwOrder debug hasFinal : Bool) : Option (Except Err Bool) :=
  match ALGO, dir with
  | 8, .json _ => some (.error (.assertion "ALGO 8 doesn't support json format"))
  | _, _ =>
    match getAlgo ALGO with
    | .error e => some (.error e)
    | .ok (checkerCls, graphConstructor) =>
      let constructed := graphConstructor.construct o dir strongSession hasFinal
      if ALGO ∈ [3, 5] then
        some (mainAlgo35Raising (constructed >>= Constructed.theEncoding)
          (checkerCls.checkEncoding o sv))
      else if ALGO ∈ [0, 1, 2, 4] then
        some (mainAlgo0124 o (constructed >>= Constructed.theGraph)
          (if debug then checkerCls.debug sv else checkerCls.check sv) ALGO wwOrder)
      else if ALGO ∈ [6, 8, 12] then
        mainAlgo6812Raising fuel o (constructed >>= Constructed.theEncoding >>= dir.readSortedIds)
          (checkerCls.checkEncoding o sv)
      else if ALGO ∈ [9, 10, 11] then
        mainAlgo012HeuristicRaising fuel o
          (constructed >>= Constructed.theGraph >>= dir.readSortedIds)
          (checkerCls.check sv) ALGO wwOrder
      else some (.error (.assertion "Please provide a valid algo type"))

end Algorithms

section Json

variable {κ ν : Type} [LinearOrder κ] [ToString κ] [DecidableEq ν] {fuel : Nat} {o : SetOrder}
  {sv : Solvers} {logs : List (List (JsonTxn κ))} {strongSession wwOrder hasFinal : Bool}

theorem construct_graph :
    (GraphConstructor.adyaSI.construct o (.json logs : LogDir κ ν) strongSession hasFinal >>=
    Constructed.theGraph) = AdyaSI.constructGraphFromLogs o logs strongSession hasFinal := by
  rw [GraphConstructor.construct]
  cases AdyaSI.constructGraphFromLogs o logs strongSession hasFinal <;> rfl

theorem construct_encoding :
    (GraphConstructor.adyaSIChain.construct o (.json logs : LogDir κ ν) strongSession hasFinal >>=
    Constructed.theEncoding) =
    AdyaSIChain.constructGraphFromLogs o logs strongSession hasFinal := by
  rw [GraphConstructor.construct]
  cases AdyaSIChain.constructGraphFromLogs o logs strongSession hasFinal <;> rfl

/-- Algorithms 1, 2 and 4. -/
theorem mainAllcases_check {ALGO : Nat} (cls : CheckerCls)
    (h : (ALGO, cls) ∈ [(1, .z301), (2, .edgeWeight), (4, .bc)]) :
    mainAllcases fuel o sv ALGO (.json logs : LogDir κ ν) strongSession wwOrder false hasFinal =
      some (mainAlgo0124 o (AdyaSI.constructGraphFromLogs o logs strongSession hasFinal)
        (cls.check sv) ALGO wwOrder) := by
  rw [← construct_graph (ν := ν)]
  simp only [List.mem_cons, Prod.mk.injEq, List.not_mem_nil, or_false] at h
  rcases h with ⟨rfl, rfl⟩ | ⟨rfl, rfl⟩ | ⟨rfl, rfl⟩ <;> rfl

/-- Algorithms 10 and 11. -/
theorem mainAllcases_heuristic {ALGO : Nat} (cls : CheckerCls)
    {check : Nat → List Edge → List (Edge × Edge) → Option (Dict κ (List Nat)) → Bool}
    (h : (ALGO, cls) ∈ [(10, .z301), (11, .edgeWeight)])
    (hcheck : cls.check sv = fun n edges edgePairs w => .ok (check n edges edgePairs w)) :
    mainAllcases fuel o sv ALGO (.json logs : LogDir κ ν) strongSession wwOrder false hasFinal =
      mainAlgo012Heuristic fuel o
        (AdyaSI.constructGraphFromLogs o logs strongSession hasFinal >>= readSortedIds logs)
        check ALGO wwOrder := by
  rw [← construct_graph (ν := ν), ← mainAlgo012HeuristicRaising_ok, ← hcheck]
  simp only [List.mem_cons, Prod.mk.injEq, List.not_mem_nil, or_false] at h
  rcases h with ⟨rfl, rfl⟩ | ⟨rfl, rfl⟩ <;> rfl

theorem mainAllcases_five : mainAllcases fuel o sv 5
    (.json logs : LogDir κ ν) strongSession wwOrder false hasFinal =
    some (mainAlgo35 (AdyaSIChain.constructGraphFromLogs o logs strongSession hasFinal)
      (verdictOf o sv.monosat)) := by
  rw [← construct_encoding (ν := ν)]
  rfl

theorem mainAllcases_six : mainAllcases fuel o sv 6
    (.json logs : LogDir κ ν) strongSession wwOrder false hasFinal =
    algo6Json fuel o sv.monosat logs strongSession hasFinal := by
  rw [algo6Json, ← mainAlgo6812Raising_ok, ← construct_encoding (ν := ν)]
  rfl

end Json

section Written

variable {κ : Type}

/-- The algorithms on the plain encoding whose answer counts on these logs: the write
order of Z3 is one of list positions, and the timestamps are 10 bits wide. -/
inductive Plain (logs : List (Log κ)) (wwOrder : Bool) : Nat → Prop
  | bc : Plain logs wwOrder 4
  | z301 : wwOrder = false → Plain logs wwOrder 1
  | z301Heuristic : wwOrder = false → Plain logs wwOrder 10
  | edgeWeight : 2 * (historyOf logs).length ≤ 2 ^ MONO_BV_WIDTH → Plain logs wwOrder 2
  | edgeWeightHeuristic : 2 * (historyOf logs).length ≤ 2 ^ MONO_BV_WIDTH → Plain logs wwOrder 11

variable {ν : Type} [LinearOrder κ] [ToString κ] [DecidableEq ν] {fuel : Nat} {o : SetOrder}
  {sv : Solvers}
  {logs : List (Log κ)} {strongSession wwOrder hasFinal : Bool}
  {G : ArgumentedPolyGraph κ} {ALGO : Nat}

/-- The answer of algorithm 4 on a graph. -/
def bcVerdict (o : SetOrder) (sv : Solvers) (G : ArgumentedPolyGraph κ) : Bool :=
  sv.monosat.solve (MonoBCPolyGraphChecker.check G.nNodes (G.edgeList o) (o.iter G.edgePairs)
    (some G.extKey2writes))

/-- The parser passes the logs on as they are. -/
theorem constructGraphFromLog_of_logs
    (hG : AdyaSI.constructGraphFromLogs o (logs.map Log.json) strongSession hasFinal = .ok G) :
    AdyaSI.constructGraphFromLog o (historyOf logs)
      (historiesOf logs) strongSession hasFinal = .ok G := by
  rw [AdyaSI.constructGraphFromLogs_eq, bind_eq_ok] at hG
  obtain ⟨_, _, hG⟩ := hG
  exact hG

section Graph

variable (hG : AdyaSI.constructGraphFromLogs o (logs.map Log.json) strongSession hasFinal = .ok G)
include hG

theorem z301_eq_bcVerdict : sv.adya.solve
    (Z301Checker.check G.nNodes (G.edgeList o) (o.iter G.edgePairs)
    (none : Option (Dict κ (List Nat)))) = bcVerdict o sv G := by
  obtain ⟨t, ht, hb⟩ := AdyaSI.built_of_ok (constructGraphFromLog_of_logs hG)
  rw [bcVerdict, Bool.eq_iff_iff, sv.adya.solve_iff, sv.monosat.solve_iff, hb.pairOrder_iff ht]
  constructor
  · exact Z301Checker.exists_order
  · intro h
    obtain ⟨_, ho⟩ := h
    exact Z301Checker.sat_of_order (hb.paired ht) ho

theorem edgeWeight_eq_bcVerdict (hsize : 2 * (historyOf logs).length ≤ 2 ^ MONO_BV_WIDTH) :
    sv.monosat.solve (MonoSATEdgeWeightSIChecker.check G.nNodes (G.edgeList o) (o.iter G.edgePairs)
      (none : Option (Dict κ (List Nat)))) = bcVerdict o sv G := by
  obtain ⟨t, ht, hb⟩ := AdyaSI.built_of_ok (constructGraphFromLog_of_logs hG)
  rw [bcVerdict, Bool.eq_iff_iff, sv.monosat.solve_iff, sv.monosat.solve_iff, hb.pairOrder_iff ht,
    MonoSATEdgeWeightSIChecker.satisfiable_iff_order (hb.paired ht), hb.nNodes, and_iff_right hsize]

end Graph

/-- A builder that fails fails for all of them. -/
theorem Plain.eq_error {e : Err} (h : Plain logs wwOrder ALGO)
    (hG : AdyaSI.constructGraphFromLogs o (logs.map Log.json) strongSession hasFinal = .error e) :
    mainAllcases fuel o sv ALGO
      (.json (logs.map Log.json) : LogDir κ ν) strongSession wwOrder false hasFinal =
      some (catchReject (.error e)) := by
  cases h with
  | bc => rw [mainAllcases_check .bc (by simp), hG, mainAlgo0124, error_bind]
  | z301 => rw [mainAllcases_check .z301 (by simp), hG, mainAlgo0124, error_bind]
  | edgeWeight => rw [mainAllcases_check .edgeWeight (by simp), hG, mainAlgo0124, error_bind]
  | z301Heuristic =>
    rw [mainAllcases_heuristic .z301 (by simp) rfl, hG, error_bind, mainAlgo012Heuristic,
      fueled_error_bind]
    rfl
  | edgeWeightHeuristic =>
    rw [mainAllcases_heuristic .edgeWeight (by simp) rfl, hG, error_bind, mainAlgo012Heuristic,
      fueled_error_bind]
    rfl

/-- A graph gets the answer of algorithm 4 from all of them. -/
theorem Plain.eq_ok (h : Plain logs wwOrder ALGO)
    (hG : AdyaSI.constructGraphFromLogs o (logs.map Log.json) strongSession hasFinal = .ok G)
    (hf : 2 * (historyOf logs).length + 10 < fuel) :
    mainAllcases fuel o sv ALGO
      (.json (logs.map Log.json) : LogDir κ ν) strongSession wwOrder false hasFinal =
      some (.ok (bcVerdict o sv G)) := by
  have hgraph := constructGraphFromLog_of_logs hG
  obtain ⟨t, ht, hb⟩ := AdyaSI.built_of_ok hgraph
  have hids : ∀ txns ∈ historiesOf logs, ∀ e ∈ txns, e.id < (historyOf logs).length := by
    intro txns htxns e he
    exact ((sessions_historiesOf txns htxns).2 e he).2
  have hg := AdyaSI.pairPrunable_of_ok hids hgraph
  rw [← hb.nNodes] at hf
  cases h with
  | bc =>
    rw [mainAllcases_check .bc (by simp), hG]
    rfl
  | z301 hw =>
    rw [mainAllcases_check .z301 (by simp), hG, hw, ← z301_eq_bcVerdict hG]
    rfl
  | z301Heuristic hw =>
    rw [mainAllcases_heuristic .z301 (by simp) rfl, AdyaSI.constructGraphFromLogs_sorted, hG,
      hw, ← z301_eq_bcVerdict hG]
    exact (hg.mainAlgo012Heuristic_eq (decidesOrder_z301 sv.adya) (.inl rfl) hf).1
  | edgeWeight hsize =>
    rw [mainAllcases_check .edgeWeight (by simp), hG, ← edgeWeight_eq_bcVerdict hG hsize]
    cases wwOrder with
    | false => rfl
    | true =>
      rw [← hb.solve_writeOrder ht sv.monosat]
      rfl
  | edgeWeightHeuristic hsize =>
    have hplain := (hg.mainAlgo012Heuristic_eq (decidesOrder_edgeWeight sv.monosat) (.inr rfl) hf).1
    rw [mainAllcases_heuristic .edgeWeight (by simp) rfl, AdyaSI.constructGraphFromLogs_sorted,
      hG, ← edgeWeight_eq_bcVerdict hG hsize]
    cases wwOrder with
    | false => exact hplain
    | true =>
      rw [AdyaSI.mainAlgo012Heuristic_writeOrder hids hgraph sv.monosat (by omega)]
      exact hplain

theorem Plain.eq_algo4Json (h : Plain logs wwOrder ALGO)
    (hf : 2 * (historyOf logs).length + 10 < fuel) :
    mainAllcases fuel o sv ALGO
      (.json (logs.map Log.json) : LogDir κ ν) strongSession wwOrder false hasFinal =
      some (algo4Json o sv.monosat (logs.map Log.json) strongSession hasFinal) := by
  rw [algo4Json]
  cases hG : AdyaSI.constructGraphFromLogs o (logs.map Log.json) strongSession hasFinal with
  | error e => rw [h.eq_error hG, mainAlgo0124, error_bind]
  | ok G =>
    rw [h.eq_ok hG hf]
    rfl

omit [ToString κ] in
/-- `check_INT` has passed what the builders get. -/
theorem parsed_historyOf (h : checkAll (sessionsOf logs).flatten = .ok ()) :
    AdyaSIChain.Parsed (historyOf logs) := by
  right
  intro e he txn hv
  cases List.mem_cons.mp he with
  | inl he =>
    subst he
    obtain ⟨writes, _, rfl⟩ := Option.map_eq_some_iff.mp hv
    exact checkINT_writes (initialMops_writes writes)
  | inr he =>
    obtain ⟨p, hp, rfl⟩ := List.mem_map.mp he
    cases hv
    exact checkAll_eq_ok.mp h p.2 (List.mem_of_getElem? (mem_numberFrom.mp hp).2)

/-- Pruning leaves nothing of algorithm 5 unanswered. -/
theorem mainAllcases_pruned (o : SetOrder) (sv : Solvers) (logs : List (Log κ))
    (strongSession wwOrder hasFinal : Bool) :
    ∃ enough, ∀ fuel, enough ≤ fuel →
      mainAllcases fuel o sv 6
        (.json (logs.map Log.json) : LogDir κ ν) strongSession wwOrder false hasFinal =
        mainAllcases fuel o sv 5
          (.json (logs.map Log.json) : LogDir κ ν) strongSession wwOrder false hasFinal := by
  simp only [mainAllcases_five, mainAllcases_six, algo6Json,
    AdyaSIChain.constructGraphFromLogs_sorted]
  apply mainAlgo6812_eq_mainAlgo35
  intro g con hok
  rw [AdyaSIChain.constructGraphFromLogs_eq, bind_eq_ok] at hok
  obtain ⟨_, hcheck, hok⟩ := hok
  exact (EncodingOf.chain (parsed_historyOf hcheck)
    (fun txns htxns e he => ((sessions_historiesOf txns htxns).2 e he).2) hok).prunable

/-- The five ways to check the plain encoding end alike, in a verdict or in the
exception that the builder raises, and so do the two ways to check the chain encoding. -/
theorem mainAllcases_agree (o : SetOrder) (sv : Solvers) (logs : List (Log κ))
    (strongSession wwOrder hasFinal : Bool) :
    ∃ enough, ∀ fuel, enough ≤ fuel →
      (∀ ALGO, Plain logs wwOrder ALGO →
        mainAllcases fuel o sv ALGO
          (.json (logs.map Log.json) : LogDir κ ν) strongSession wwOrder false hasFinal =
          mainAllcases fuel o sv 4
            (.json (logs.map Log.json) : LogDir κ ν) strongSession wwOrder false hasFinal) ∧
      mainAllcases fuel o sv 6
        (.json (logs.map Log.json) : LogDir κ ν) strongSession wwOrder false hasFinal =
        mainAllcases fuel o sv 5
          (.json (logs.map Log.json) : LogDir κ ν) strongSession wwOrder false hasFinal := by
  obtain ⟨enough, hpruned⟩ := mainAllcases_pruned (ν := ν) o sv logs strongSession wwOrder hasFinal
  refine ⟨max enough (2 * (historyOf logs).length + 11), ?_⟩
  intro fuel hf
  refine ⟨?_, hpruned fuel (le_of_max_le_left hf)⟩
  intro ALGO h
  have hlarge : 2 * (historyOf logs).length + 10 < fuel := le_of_max_le_right hf
  rw [h.eq_algo4Json hlarge, Plain.bc.eq_algo4Json hlarge]

theorem mainAllcases_agree_listed : Plain listedLogs true 11 ∧ ∃ enough, ∀ fuel, enough ≤ fuel →
    (∀ ALGO, Plain listedLogs true ALGO →
      mainAllcases fuel .stored .exact ALGO
        (.json (listedLogs.map Log.json) : LogDir Nat Nat) true true false false =
        mainAllcases fuel .stored .exact 4
          (.json (listedLogs.map Log.json) : LogDir Nat Nat) true true false false) ∧
    mainAllcases fuel .stored .exact 6
      (.json (listedLogs.map Log.json) : LogDir Nat Nat) true true false false =
      mainAllcases fuel .stored .exact 5
        (.json (listedLogs.map Log.json) : LogDir Nat Nat) true true false false :=
  ⟨.edgeWeightHeuristic (by decide), mainAllcases_agree .stored .exact listedLogs true true false⟩

/-- The algorithms whose answer counts on these logs. The chain builder takes the number
of a transaction for the position of a query in it. -/
inductive Applicable (logs : List (Log κ)) (wwOrder : Bool) : Nat → Prop
  | plain {number : Nat} : Plain logs wwOrder number → Applicable logs wwOrder number
  | chain : (∀ q m k p, Omits (historyOf logs) q m k → ¬ UpsertAt (historyOf logs) q p k) →
      Applicable logs wwOrder 5
  | pruned : (∀ q m k p, Omits (historyOf logs) q m k → ¬ UpsertAt (historyOf logs) q p k) →
      Applicable logs wwOrder 6

omit [ToString κ] in
/-- Without own upserts the limit does not matter. -/
theorem logsAccounted_limit {limit limit' : Nat × Nat → Nat}
    (hown : ∀ q m k p, Omits (historyOf logs) q m k → ¬ UpsertAt (historyOf logs) q p k)
    (h : LogsAccounted logs strongSession limit) : LogsAccounted logs strongSession limit' where
  left := h.1
  right := ⟨h.2.sources, fun q m k hom p _ => hown q m k p hom, h.2.ordered⟩

/-- On register logs all of them answer like algorithm 4. -/
theorem applicable_eq_algo4Json (o : SetOrder) (sv : Solvers) (strongSession wwOrder : Bool)
    (h : RegisterLogs logs) :
    ∃ enough, ∀ fuel, enough ≤ fuel → ∀ ALGO, Applicable logs wwOrder ALGO →
      mainAllcases fuel o sv ALGO
        (.json (logs.map Log.json) : LogDir κ ν) strongSession wwOrder false false =
        some (algo4Json o sv.monosat (logs.map Log.json) strongSession false) := by
  obtain ⟨b, hb, hiff⟩ := algo4Json_iff o sv.monosat logs strongSession h
  obtain ⟨enough₆, b₆, hb₆, hiff₆⟩ := algo6Json_iff o sv.monosat logs strongSession h
  obtain ⟨enough₅, hb₅⟩ := mainAllcases_pruned (ν := ν) o sv logs strongSession wwOrder false
  have hsame : (∀ q m k p, Omits (historyOf logs) q m k → ¬ UpsertAt (historyOf logs) q p k) →
      b₆ = b := by
    intro hown
    rw [Bool.eq_iff_iff, hiff, hiff₆]
    exact ⟨logsAccounted_limit hown, logsAccounted_limit hown⟩
  refine ⟨max (max enough₅ enough₆) (2 * (historyOf logs).length + 11), ?_⟩
  intro fuel hf ALGO hA
  have h₅ := hb₅ fuel (le_of_max_le_left (le_of_max_le_left hf))
  have h₆ := hb₆ fuel (le_of_max_le_right (le_of_max_le_left hf))
  rw [← mainAllcases_six (ν := ν)] at h₆
  cases hA with
  | plain hp => rw [hp.eq_algo4Json (le_of_max_le_right hf)]
  | chain hown => rw [← h₅, h₆, hsame hown, hb]
  | pruned hown => rw [h₆, hsame hown, hb]

/-- On register logs all of them give the same verdict: yes if the history can be
accounted for, and no otherwise. -/
theorem mainAllcases_verdict (o : SetOrder) (sv : Solvers) (logs : List (Log κ))
    (strongSession wwOrder : Bool)
    (h : RegisterLogs logs) : ∃ enough,
    ∃ b, (b = true ↔ LogsAccounted logs strongSession Prod.snd) ∧
      ∀ fuel, enough ≤ fuel → ∀ ALGO, Applicable logs wwOrder ALGO →
        mainAllcases fuel o sv ALGO
          (.json (logs.map Log.json) : LogDir κ ν) strongSession wwOrder false false =
          some (.ok b) := by
  obtain ⟨b, hb, hiff⟩ := algo4Json_iff o sv.monosat logs strongSession h
  obtain ⟨enough, hsame⟩ := applicable_eq_algo4Json (ν := ν) o sv strongSession wwOrder h
  refine ⟨enough, b, hiff, ?_⟩
  intro fuel hf ALGO hA
  rw [hsame fuel hf ALGO hA, hb]

theorem mainAllcases_verdict_listed :
    RegisterLogs listedLogs ∧ Applicable listedLogs false 10 ∧ Applicable listedLogs false 6 ∧
    ∃ enough, ∃ b, (b = true ↔ LogsAccounted listedLogs true Prod.snd) ∧
      ∀ fuel, enough ≤ fuel → ∀ ALGO, Applicable listedLogs false ALGO →
        mainAllcases fuel .stored .exact ALGO
          (.json (listedLogs.map Log.json) : LogDir Nat Nat) true false false false =
          some (.ok b) :=
  ⟨registers_listedLogs, .plain (.z301Heuristic rfl), .pruned not_upsertAt_listedLogs,
    mainAllcases_verdict .stored .exact listedLogs true false registers_listedLogs⟩

end Written

/-!
### Who says yes

An entrance only says yes when the checker has said yes to what was built, or to a
copy of it with more edges. The combinations that raise therefore never say yes.
-/

section Accepts

variable {κ : Type} {fuel : Nat} {o : SetOrder} {ALGO : Nat} {wwOrder : Bool}

end Accepts

section Numbers

variable {κ ν : Type} {sv : Solvers} {cls : CheckerCls}

/-- The classes that get through with the tuple of a graph. -/
inductive CheckerCls.TakesTuple : Bool → CheckerCls → Prop
  | bc (debug : Bool) : TakesTuple debug .bc
  | z301 : TakesTuple false .z301
  | edgeWeight : TakesTuple false .edgeWeight

variable {ALGO : Nat} {c : GraphConstructor}

variable [LinearOrder κ] [ToString κ] [DecidableEq ν] {fuel : Nat} {o : SetOrder} {dir : LogDir κ ν}
  {strongSession wwOrder debug hasFinal : Bool}

/-- The constructor has returned what the entrance expects, and the checker of the
number got through with it. -/
inductive Checked (debug : Bool) (cls : CheckerCls) : Nat → Constructed κ → Prop
  | encoding {ALGO g conn} : ALGO ∈ [3, 5, 6, 8, 12] → (2 ≤ g.nNodes → cls = .bcOptimized) →
    Checked debug cls ALGO (.encoding g conn)
  | tuple {ALGO G} : ALGO ∈ [0, 1, 2, 4] → cls.TakesTuple debug → Checked debug cls ALGO (.graph G)
  | pruned {ALGO G} : ALGO ∈ [9, 10, 11] → cls.TakesTuple false → Checked debug cls ALGO (.graph G)

end Numbers

end Viper
