import Viper.AdyaSIChain

/-!
# The algorithm entrances (`algos/algo_entrances.py`)

An entrance builds a graph, hands it to a checker and turns a rejection into
the verdict `false`. Other exceptions are not caught.
-/
namespace Viper

open Py

/-- `except RejectException: result = False` -/
def catchReject (result : Except Err Bool) : Except Err Bool :=
  match result with
  | .error (.reject _) => .ok false
  | r => r

variable {κ : Type}

/-- `main_algo_0_1_2_4` without debug mode, for a given graph constructor and checker. -/
def mainAlgo0124 (o : SetOrder) (graphConstructor : Except Err (ArgumentedPolyGraph κ))
    (check : Nat → List Edge → List (Edge × Edge) → Option (Dict κ (List Nat)) → Except Err Bool)
    (ALGO : Nat) (wwOrder : Bool) : Except Err Bool :=
  catchReject do
    let G ← graphConstructor
    let (n, edges, edgePairs, extWrites) := G.get4tuples o
    check n edges edgePairs
      (if (ALGO = 1 ∨ ALGO = 2) ∧ wwOrder = false then none else some extWrites)

/-- `main_algo3_5`, for a given graph constructor and checker. -/
def mainAlgo35 (graphConstructor : Except Err (ArgumentedPolyGraph κ × List Constraint))
    (check : ArgumentedPolyGraph κ → List Constraint → Bool) : Except Err Bool :=
  catchReject do
    let (g, conn) ← graphConstructor
    .ok (check g conn)

/-- The verdict of algorithm 5 on a parsed history. -/
def algo5 [LinearOrder κ] [ToString κ] (o : SetOrder) (monosat : GraphSat.Oracle)
    (fullHistory : List (Entry (Mop κ Value))) (histories : List (List (Entry (Mop κ Value))))
    (strongSession hasFinal : Bool) : Except Err Bool :=
  mainAlgo35 (AdyaSIChain.constructEncoding o fullHistory histories strongSession hasFinal)
    (fun g conn => monosat.solve (MonoBCPolyGraphCheckerOptimized.check o g conn))

/-- The verdict of algorithm 4 on a parsed history, with MonoSAT as a parameter. -/
def algo4 [LinearOrder κ] [ToString κ] (o : SetOrder) (monosat : GraphSat.Oracle)
    (fullHistory : List (Entry (Mop κ Value))) (histories : List (List (Entry (Mop κ Value))))
    (strongSession hasFinal : Bool) : Except Err Bool :=
  mainAlgo0124 o (AdyaSI.constructGraphFromLog o fullHistory histories strongSession hasFinal)
    (fun n edges edgePairs extWrites =>
      .ok (monosat.solve (MonoBCPolyGraphChecker.check n edges edgePairs extWrites)))
    4 false

end Viper
