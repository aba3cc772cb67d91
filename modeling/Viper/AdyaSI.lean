import Viper.Graphs

/-!
# The plain builder (`buildgraph/build_graph4adyaSI.py`)

The part of `construct_graph_from_log` after parsing: the full history and the
sessions are its input, the polygraph its result. Loops over Python sets run in
the order `o` gives; nothing else of the builder depends on that order.
-/
namespace Viper

open Py

section Shared

variable {κ μ : Type}

/-- A phase behind a command-line switch. -/
def optionally {α : Type} (switch : Bool) (phase : α → Except Err α) (a : α) : Except Err α :=
  if switch then phase a else .ok a

/-- Session order: `cb` edges between consecutive transactions of a session. -/
def addSessionOrder (G : ArgumentedPolyGraph κ) (histories : List (List (Entry μ))) :
    Except Err (ArgumentedPolyGraph κ) :=
  histories.foldlM (fun G txns =>
    (txns.zip txns.tail).foldlM (fun G p => G.addEdge p.1.id p.2.id .cb) G) G

/-- The initial transaction commits before every other one. -/
def addInitialOrder (G : ArgumentedPolyGraph κ) : Except Err (ArgumentedPolyGraph κ) :=
  (List.range' 1 (G.nNodes - 1)).foldlM (fun G i => G.addEdge 0 i .cb) G

/-- All pairs of list elements, the earlier one first. -/
def pairsOf {α : Type} : List α → List (α × α)
  | [] => []
  | a :: l => l.map (fun b => (a, b)) ++ pairsOf l

variable [LinearOrder κ]

/-- `initial_state is None or (k in initial_state and initial_state[k] == v)` -/
def fromInitial (initialState : Option (Dict κ Value)) (k : κ) (v : Value) : Bool :=
  match initialState with
  | none => true
  | some st => st.get? k == some v

/-- Readers of a value nobody wrote, explained by the initial transaction. -/
def addInitialReads (o : SetOrder) (extWrites : Index κ Value) (k : κ) (readTxns : List Nat)
    (G : ArgumentedPolyGraph κ) : Except Err (ArgumentedPolyGraph κ) := do
  let G ← G.addEdges [0] (o.iter readTxns) .wr
  let kWrites := kWritesFn extWrites k
  (o.iter readTxns).foldlM (fun G Tj => G.addEdges [Tj] (o.iter (diff kWrites [Tj])) .rw) G

/-- A micro-operation of the history, by position. -/
def mopAt {ν : Type} (fullHistory : List (Entry (Mop κ ν))) (i j : Nat) : Except Err (Mop κ ν) :=
  match fullHistory[i]? with
  | none => .error .indexError
  | some e =>
    match e.value with
    | none => .error .typeError
    | some txn =>
      match txn[j]? with
      | none => .error .indexError
      | some mop => .ok mop

/-- The query of `queryTxn` does not return `k`, so it precedes every upsert of
`k`. Inside its own transaction an upsert at a position up to `limit` is fatal. -/
def addOmittedKey (o : SetOrder) (allUpserts : Positions κ Value) (queryTxn limit : Nat)
    (G : ArgumentedPolyGraph κ) (k : κ) : Except Err (ArgumentedPolyGraph κ) :=
  (o.iter (kUpsertsFn allUpserts k)).foldlM (fun G insPos =>
    if queryTxn = insPos.1 then
      if limit ≥ insPos.2 then .error (.reject "") else .ok G
    else G.addEdge queryTxn insPos.1 .rw) G

/-- The keys of `K` that a query covers and returns in neither record list. -/
def otherKeys (K : List κ) (k1 k2 : Option κ) (queryResult deadResult : List (Record κ Value)) :
    List κ :=
  diff (diff (subset K k1 k2) (queryResult.map Record.id)) (deadResult.map Record.id)

/-- Every returned key has to lie between the bounds. -/
def assertReturned (k1 k2 : Option κ) (queryResult deadResult : List (Record κ Value)) :
    Except Err Unit :=
  ((queryResult.map Record.id) ∪ (deadResult.map Record.id)).foldlM
    (fun _ k => require (inBetween k k1 k2) "") ()

/-- The record lists of the final query, `final_query[3:5]`. -/
def finalQuery (fullHistory : List (Entry (Mop κ Value))) :
    Except Err (List (Record κ Value) × List (Record κ Value)) := do
  match ← mopAt fullHistory (fullHistory.length - 1) 0 with
  | .range _ _ queryResult deadResult _ => .ok (queryResult, deadResult)
  | .i _ _ _ _ _ => .error .typeError
  | .d _ _ _ _ _ => .error .typeError
  | _ => .error .valueError

end Shared

namespace AdyaSI

variable {κ : Type} [LinearOrder κ] [ToString κ]

/-- One value `v` of key `k` and the transactions that externally read it. -/
def addRead (o : SetOrder) (extWrites : Index κ Value) (initialState : Option (Dict κ Value))
    (k : κ) (G : ArgumentedPolyGraph κ)
    (p : Value × List Nat) : Except Err (ArgumentedPolyGraph κ) :=
  match o.iter (getIn extWrites k p.1) with
  | [] =>
    if fromInitial initialState k p.1 then addInitialReads o extWrites k p.2 G
    else if isNull p.1 then .ok G
    else .error (.reject s!"dirty read {k}: {p.1}")
  | [Ti] => do
    let G ← G.addEdges [Ti] (o.iter p.2) .wr
    (o.iter p.2).foldlM (fun G Tj =>
      (o.iter (TkSetFn extWrites k [Ti, Tj])).foldlM (fun G Tk =>
        G.addEdgePair Tk Ti .ww Tj Tk .rw) G) G
  | _ => .error (.assertion "There shouldn't be two txns writing the same value for the same key!")

def addReads (o : SetOrder) (extWrites extReads : Index κ Value)
    (initialState : Option (Dict κ Value)) (G : ArgumentedPolyGraph κ) :
    Except Err (ArgumentedPolyGraph κ) :=
  extReads.entries.foldlM (fun G p =>
    p.2.entries.foldlM (addRead o extWrites initialState p.1) G) G

/-- Every two writers of a key, in one order or the other. -/
def addWritePairs (G : ArgumentedPolyGraph κ) : Except Err (ArgumentedPolyGraph κ) :=
  G.extKey2writes.entries.foldlM (fun G p =>
    (pairsOf p.2).foldlM (fun G q => G.addEdgePair q.1 q.2 .ww q.2 q.1 .ww) G) G

def finalRead (o : SetOrder) (extWrites : Index κ Value) (Tf : Nat) (G : ArgumentedPolyGraph κ)
    (p : κ × Value) : Except Err (ArgumentedPolyGraph κ) :=
  match o.iter (getIn extWrites p.1 p.2) with
  | [] => do
    let G ← G.addEdge 0 Tf .wr
    require (TkSetFn extWrites p.1 [0, Tf]).isEmpty "No txn can happen after Tf"
    .ok G
  | [Ti] => do
    let G ← G.addEdge Ti Tf .wr
    (o.iter (TkSetFn extWrites p.1 [Ti, Tf])).foldlM (fun G Tk => G.addEdge Tk Ti .ww) G
  | _ => .error (.assertion "")

def processFinalState (o : SetOrder) (extWrites : Index κ Value) (Tf : Nat)
    (rsDict : Dict κ Value) (G : ArgumentedPolyGraph κ) : Except Err (ArgumentedPolyGraph κ) := do
  let G ← rsDict.entries.foldlM (finalRead o extWrites Tf) G
  (List.range (G.nNodes - 1)).foldlM (fun G i => G.addEdge i Tf .cb) G

def addFinal (o : SetOrder) (fullHistory : List (Entry (Mop κ Value))) (extWrites : Index κ Value)
    (G : ArgumentedPolyGraph κ) : Except Err (ArgumentedPolyGraph κ) := do
  let Tf := fullHistory.length - 1
  let (queryResult, deadResult) ← finalQuery fullHistory
  let queryRsDict ← convertRs2dict queryResult
  let deadRsDict ← convertRs2dict deadResult
  let G ← processFinalState o extWrites Tf queryRsDict G
  processFinalState o extWrites Tf deadRsDict G

/-- A key omitted by the query `q`. Inside the own transaction, upserts up to the
position of the query are fatal. -/
def addOmitted (o : SetOrder) (allUpserts : Positions κ Value) (q : Nat × Nat)
    (G : ArgumentedPolyGraph κ) (k : κ) :
    Except Err (ArgumentedPolyGraph κ) :=
  addOmittedKey o allUpserts q.1 q.2 G k

def addRangeQuery (o : SetOrder) (fullHistory : List (Entry (Mop κ Value)))
    (allUpserts : Positions κ Value) (K : List κ) (G : ArgumentedPolyGraph κ) (q : Nat × Nat) :
    Except Err (ArgumentedPolyGraph κ) := do
  match ← mopAt fullHistory q.1 q.2 with
  | .range k1 k2 queryResult deadResult _ =>
    assertReturned k1 k2 queryResult deadResult
    (o.iter (otherKeys K k1 k2 queryResult deadResult)).foldlM
      (addOmitted o allUpserts q) G
  | _ => .error .valueError

def addRangeQueries (o : SetOrder) (fullHistory : List (Entry (Mop κ Value)))
    (G : ArgumentedPolyGraph κ) (allUpserts : Positions κ Value) (K : List κ)
    (queries : List (Nat × Nat)) : Except Err (ArgumentedPolyGraph κ) :=
  (o.iter queries).foldlM (addRangeQuery o fullHistory allUpserts K) G

def constructGraphFromLog (o : SetOrder) (fullHistory : List (Entry (Mop κ Value)))
    (histories : List (List (Entry (Mop κ Value)))) (strongSession hasFinal : Bool) :
    Except Err (ArgumentedPolyGraph κ) := do
  let G := (ArgumentedPolyGraph.init fullHistory.length).setSessionOrder histories
  let G ← optionally strongSession (addSessionOrder · histories) G
  let extWrites ← extIndex fullHistory extWritesFn
  let extReads ← extIndex fullHistory extReadsFn
  let initial ← initialState fullHistory
  let G ← addInitialOrder G
  let G ← addReads o extWrites extReads initial G
  let G := G.setAllWrites o extWrites
  let G ← addWritePairs G
  let allUpserts ← allIndex fullHistory allUpsertFn
  let K ← allKeys fullHistory
  let queries ← getAllRangeQueries fullHistory
  let G ← optionally hasFinal (addFinal o fullHistory extWrites) G
  let G ← addRangeQueries o fullHistory G allUpserts K queries
  .ok (G.setAllWrites o extWrites)

end AdyaSI

end Viper
