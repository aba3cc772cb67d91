import Viper.AdyaSI
import Viper.Lib.GraphSat

/-!
# The encodings (`checker/checkers.py`)

Each checker turns the tuple of a polygraph into constraints for a solver. The
MonoSAT checkers build a `GraphSat.Solver` up to the call of `Solve`; the Z3
checkers collect assertions about uninterpreted relations and integers, here
predicates on an interpretation. MonoSAT numbers the nodes and bit-vectors it
creates consecutively, so the assertions of the source on those numbers hold by
construction and are left out.
-/
namespace Viper

open Py GraphSat

/-- `utils.si` and `utils.ci`: the events 1, 2, .. of the split numbering. -/
def si (i : Nat) : Nat := 2 * i + 1
def ci (i : Nat) : Nat := 2 * i + 2

/-- `_si` and `_ci` of the BC checkers: both events of T0 are node 0. -/
def bcSi (i : Nat) : Nat := if i ≠ 0 then 2 * i - 1 else 0
def bcCi (i : Nat) : Nat := if i ≠ 0 then 2 * i else 0

/-- The solver edge of a typed edge. -/
def bcEnds (e : Edge) : Nat × Nat :=
  match e.type with
  | .rw => (bcSi e.src, bcCi e.dst)
  | _ => (bcCi e.src, bcSi e.dst)

/-- MonoSAT gives an edge the weight 1 unless told otherwise. -/
def bcEdge (p : Nat × Nat) : Nat × Nat × Nat := (p.1, p.2, 1)

def assertEdge (st : Solver) (u v w : Nat) : Solver :=
  let (e, st) := st.addEdge u v w
  st.assert (.lit e)

def assertXor (st : Solver) (p q : Nat × Nat) : Solver :=
  let (e1, st) := st.addEdge p.1 p.2 1
  let (e2, st) := st.addEdge q.1 q.2 1
  st.assert (.xor (.lit e1) (.lit e2))

/-- The nodes of all events, with `s_i` before `c_i`. -/
def bcNode (st : Solver) (i : Nat) : Solver :=
  let st := st.addNode.2
  if i ≠ 0 then assertEdge st.addNode.2 (bcSi i) (bcCi i) 1 else st

def bcNodes (n : Nat) : Solver := (List.range n).foldl bcNode newSolver

/-- The double loop over the writers of every key of `ext_writes`. -/
def writerPairs {κ : Type} (extWrites : Option (Dict κ (List Nat))) : List (Nat × Nat) :=
  match extWrites with
  | none => []
  | some d => d.entries.flatMap (fun p => pairsOf p.2)

/-- Algorithm 4. -/
def MonoBCPolyGraphChecker.check {κ : Type} (nNodes : Nat) (edges : List Edge)
    (edgePairs : List (Edge × Edge)) (extWrites : Option (Dict κ (List Nat))) : Solver :=
  let st := bcNodes nNodes
  let st := edges.foldl (fun st e => assertEdge st (bcEnds e).1 (bcEnds e).2 1) st
  let st := edgePairs.foldl (fun st p => assertXor st (bcEnds p.1) (bcEnds p.2)) st
  let st := (writerPairs extWrites).foldl (fun st q =>
    assertXor st (bcCi q.1, bcSi q.2) (bcCi q.2, bcSi q.1)) st
  st.assert .acyclic

def assertXorSets (st : Solver) (es1 es2 : List (Nat × Nat)) : Solver :=
  let (e1, st) := st.addEdges (es1.map bcEdge)
  let (e2, st) := st.addEdges (es2.map bcEdge)
  st.assert (.xor (.all (e1.map .lit)) (.all (e2.map .lit)))

/-- A pair of edge sets of which exactly one is to hold as a whole. -/
abbrev Constraint := List Edge × List Edge

/-- Algorithms 5, 6 and 8. -/
def MonoBCPolyGraphCheckerOptimized.check {κ : Type} (o : SetOrder) (g : ArgumentedPolyGraph κ)
    (con : List Constraint) : Solver :=
  let st := bcNodes g.nNodes
  let st := (g.edgeList o).foldl (fun st e => assertEdge st (bcEnds e).1 (bcEnds e).2 1) st
  let st := (o.iter con).foldl (fun st p =>
    assertXorSets st (p.1.map bcEnds) (p.2.map bcEnds)) st
  st.assert .acyclic

section EdgeWeight

def MONO_BV_WIDTH : Nat := 10

def type2weight : EdgeType → Nat
  | .wr => 0
  | .ww => 0
  | .cb => 0
  | .rw => 1

/-- Bit-vectors are created begin first, two for each transaction. -/
def beginTimestamp (i : Nat) : Nat := 2 * i
def commitTimestamp (i : Nat) : Nat := 2 * i + 1

def createTimeDeps (e : Edge) : Formula :=
  match e.type with
  | .rw => .bvLt (beginTimestamp e.src) (commitTimestamp e.dst)
  | _ => .bvLt (commitTimestamp e.src) (beginTimestamp e.dst)

def addTimestamps (st : Solver) (_i : Nat) : Solver :=
  let st := st.addNode.2
  let (b, st) := st.bitVector MONO_BV_WIDTH
  let (c, st) := st.bitVector MONO_BV_WIDTH
  st.assert (.bvLt b c)

def assertTimed (st : Solver) (e : Edge) : Solver :=
  (assertEdge st e.src e.dst (type2weight e.type)).assert (createTimeDeps e)

def assertTimedXor (st : Solver) (p : Edge × Edge) : Solver :=
  let (e1, st) := st.addEdge p.1.src p.1.dst (type2weight p.1.type)
  let (e2, st) := st.addEdge p.2.src p.2.dst (type2weight p.2.type)
  st.assert (.xor (.conj (.lit e1) (createTimeDeps p.1)) (.conj (.lit e2) (createTimeDeps p.2)))

/-- Either no dependency path from `i` to `j`, or no path back with at most one
anti-dependency. -/
def noShortCycle (q : Nat × Nat) : Formula :=
  .neg (.conj (.distanceLeq q.1 q.2 0) (.distanceLeq q.2 q.1 1))

def assertWriteOrder (st : Solver) (q : Nat × Nat) : Solver :=
  let (e1, st) := st.addEdge q.1 q.2 (type2weight .ww)
  let (e2, st) := st.addEdge q.2 q.1 (type2weight .ww)
  st.assert (.xor (.lit e1) (.lit e2))

/-- Algorithm 2. -/
def MonoSATEdgeWeightSIChecker.check {κ : Type} (nNodes : Nat) (edges : List Edge)
    (edgePairs : List (Edge × Edge)) (extWrites : Option (Dict κ (List Nat))) : Solver :=
  let st := (List.range nNodes).foldl addTimestamps newSolver
  let st := (pairsOf (List.range (2 * nNodes))).foldl (fun st q => st.assert (.bvNe q.1 q.2)) st
  let st := edges.foldl assertTimed st
  let st := edgePairs.foldl assertTimedXor st
  let st := (writerPairs extWrites).foldl assertWriteOrder st
  (pairsOf (List.range nNodes)).foldl (fun st q => st.assert (noShortCycle q)) st

namespace MonoSATEdgeWeightSICheckerOptimized

/-- `self.g`: the graph of this class is the local variable `G`. -/
def selfG : Except Err Unit := .error .attributeError

/-- The literals of an edge set, and the variable that holds the time dependency
of one edge at a time. -/
def addTimedEdges (st : Solver) (timeDep : Option Formula) (es : List Edge) :
    List Nat × Solver × Option Formula :=
  es.foldl (fun s e =>
    let (lit, st) := s.2.1.addEdge e.src e.dst (type2weight e.type)
    (s.1 ++ [lit], st, some (createTimeDeps e))) ([], st, timeDep)

/-- One constraint. `time_dep1` and `time_dep2` are those of the last edges, or
left over from an earlier constraint. -/
def assertTimedSets (s : Solver × Option Formula × Option Formula) (p : Constraint) :
    Except Err (Solver × Option Formula × Option Formula) :=
  let (e1, st, timeDep1) := addTimedEdges s.1 s.2.1 p.1
  let (e2, st, timeDep2) := addTimedEdges st s.2.2 p.2
  match timeDep1, timeDep2 with
  | some t1, some t2 =>
    .ok (st.assert (.xor (.all (e1.map .lit ++ [t1])) (.all (e2.map .lit ++ [t2]))),
      timeDep1, timeDep2)
  | _, _ => .error .unboundLocalError

/-- Algorithm 3. -/
def check {κ : Type} (o : SetOrder) (g : ArgumentedPolyGraph κ) (conn : List Constraint) :
    Except Err Solver := do
  let st := (List.range g.nNodes).foldl addTimestamps newSolver
  let st := (pairsOf (List.range (2 * g.nNodes))).foldl (fun st q => st.assert (.bvNe q.1 q.2)) st
  let st := (g.edgeList o).foldl assertTimed st
  let (st, _) ← (o.iter conn).foldlM assertTimedSets (st, none, none)
  (pairsOf (List.range g.nNodes)).foldlM (fun st q => do
    selfG
    .ok (st.assert (noShortCycle q))) st

end MonoSATEdgeWeightSICheckerOptimized

end EdgeWeight

section Z3

/-- Satisfiability of a list of assertions over interpretations in `M`. -/
def Sat {M : Type} (assertions : List (M → Prop)) : Prop := ∃ m, ∀ f ∈ assertions, f m

/-- An interpretation of the uninterpreted relation of the general-SI encoding. -/
abbrev Interp := Int → Int → Prop

def Z3GeneralSIChecker.addEdge (e : Edge) (R : Interp) : Prop :=
  match e.type with
  | .rw => R (si e.src) (ci e.dst)
  | _ => R (ci e.src) (si e.dst)

def Z3GeneralSIChecker.pair (p : Edge × Edge) : Except Err (Interp → Prop) :=
  let (e1, e2) := p
  if e1.type ≠ .rw ∧ e2.type = .rw then
    .ok (fun R => Xor (R (ci e1.src) (ci e1.dst)) (R (si e2.src) (ci e2.dst)))
  else if e2.type ≠ .rw ∧ e1.type = .rw then
    .ok (fun R => Xor (R (ci e2.src) (ci e2.dst)) (R (si e1.src) (ci e1.dst)))
  else if e1.type ≠ .rw ∧ e2.type ≠ .rw then do
    require (e1.src = e2.dst ∧ e2.src = e1.dst) "must be a pair of ww edges"
    .ok (fun R => Xor (R (ci e1.src) (si e1.dst)) (R (ci e1.dst) (si e1.src)))
  else .error (.assertion "")

/-- Algorithm 0. The last range is `range(si(0), ci(n) - 1)`. -/
def Z3GeneralSIChecker.check (nNodes : Nat) (edges : List Edge) (edgePairs : List (Edge × Edge)) :
    Except Err (List (Interp → Prop)) := do
  let begins := (List.range nNodes).map (fun i (R : Interp) => R (si i) (ci i))
  let transitive : Interp → Prop := fun R => ∀ v0 v1 v2, R v0 v1 ∧ R v1 v2 → R v0 v2
  let known := edges.map Z3GeneralSIChecker.addEdge
  let pairs ← edgePairs.mapM Z3GeneralSIChecker.pair
  let smtNodes := List.range' (si 0) (ci nNodes - 1 - si 0)
  let irreflexive := smtNodes.map (fun (i : Nat) (R : Interp) => ¬ R i i)
  .ok (begins ++ [transitive] ++ known ++ pairs ++ irreflexive)

namespace MonoBCPolyGraphChecker

def whichEdge (R : Interp) (src dst : Nat) (t : EdgeType) : Prop :=
  match t with
  | .rw => R (si src) (ci dst)
  | _ => R (ci src) (si dst)

/-- The write order of two writers. The arguments are events already, and
`which_edge` takes them for transactions. -/
def writeOrder (q : Nat × Nat) (R : Interp) : Prop :=
  Xor (whichEdge R (ci q.1) (si q.2) .ww) (whichEdge R (ci q.2) (si q.1) .ww)

/-- Algorithm 4 in debug mode: the assertion of transitivity and the assumptions. -/
def debug {κ : Type} (n : Nat) (edges : List Edge) (edgePairs : List (Edge × Edge))
    (extWrites : Option (Dict κ (List Nat))) : List (Interp → Prop) :=
  let begins := (List.range n).map (fun i (R : Interp) => R (si i) (ci i))
  let irreflexive := (List.range' 1 (2 * n)).map (fun (i : Nat) (R : Interp) => ¬ R i i)
  let transitive : Interp → Prop := fun R => ∀ v0 v1 v2, R v0 v1 ∧ R v1 v2 → R v0 v2
  let known := edges.map (fun e R => whichEdge R e.src e.dst e.type)
  let pairs :=
    edgePairs.map
      (fun p R => Xor (whichEdge R p.1.src p.1.dst p.1.type) (whichEdge R p.2.src p.2.dst p.2.type))
  begins ++ irreflexive ++ [transitive] ++ known ++ pairs ++ (writerPairs extWrites).map writeOrder

end MonoBCPolyGraphChecker

/-- Timestamps and dependency relations of the Adya-SI encoding. -/
structure AdyaModel where
  b : Nat → Int
  c : Nat → Int
  WRWW : Int → Int → Prop
  RW : Int → Int → Prop

/-- `type2R` -/
def AdyaModel.rel (m : AdyaModel) : EdgeType → Int → Int → Prop
  | .rw => m.RW
  | _ => m.WRWW

/-- `_create_time_deps` -/
def AdyaModel.timeDep (m : AdyaModel) (e : Edge) : Prop :=
  match e.type with
  | .rw => m.b e.src < m.c e.dst
  | _ => m.c e.src < m.b e.dst

/-- `Distinct` of the interleaved list of all timestamps. -/
def AdyaModel.timestamps (m : AdyaModel) (n : Nat) : List Int :=
  (List.range n).flatMap (fun i => [m.b i, m.c i])

/-- Algorithm 1. With `extWrites` the relation is indexed by list positions. -/
def Z301Checker.check {κ : Type} (n : Nat) (edges : List Edge) (edgePairs : List (Edge × Edge))
    (extWrites : Option (Dict κ (List Nat))) : List (AdyaModel → Prop) :=
  let begins := (List.range n).map (fun i (m : AdyaModel) => m.b i < m.c i)
  let distinct : AdyaModel → Prop := fun m => (m.timestamps n).Nodup
  let transitive : AdyaModel → Prop := fun m =>
    ∀ v0 v1 v2, m.WRWW v0 v1 ∧ m.WRWW v1 v2 → m.WRWW v0 v2
  let known := edges.flatMap (fun e =>
    [fun (m : AdyaModel) => m.rel e.type e.src e.dst, fun m => m.timeDep e])
  let constraints := edgePairs.map (fun p (m : AdyaModel) =>
    Xor (m.rel p.1.type p.1.src p.1.dst ∧ m.timeDep p.1)
      (m.rel p.2.type p.2.src p.2.dst ∧ m.timeDep p.2))
  let noDepCycle := (List.range n).map (fun (i : Nat) (m : AdyaModel) => ¬ m.WRWW i i)
  let noAntiDepCycle := (pairsOf (List.range n)).map (fun (q : Nat × Nat) (m : AdyaModel) =>
    ¬ (m.WRWW q.1 q.2 ∧ m.RW q.2 q.1))
  let wwOrder := match extWrites with
    | none => []
    | some d => d.entries.flatMap (fun p => (pairsOf (List.range p.2.length)).map
        (fun (q : Nat × Nat) (m : AdyaModel) => Xor (m.WRWW q.1 q.2) (m.WRWW q.2 q.1)))
  begins ++ [distinct, transitive] ++ known ++ constraints ++ noDepCycle ++
  noAntiDepCycle ++ wwOrder

end Z3

end Viper
