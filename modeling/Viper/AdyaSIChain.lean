import Viper.ChainEncoding

/-!
# The chain builder (`buildgraph/build_graph4adyaSI_chain.py`)

The known part of the polygraph is built like that of the plain builder, with
the readers of every version on the side. Read-modify-writes of a key are its
known successors; the rest of the version order becomes coalesced constraints.
-/
namespace Viper

open Py

namespace AdyaSIChain

variable {κ : Type} [LinearOrder κ] [ToString κ]

/-- One value `v` of key `k` and the transactions that externally read it. -/
def addRead (o : SetOrder) (extWrites : Index κ Value)
    (initialState : Option (Dict κ Value)) (k : κ)
    (st : ArgumentedPolyGraph κ × ReadFrom κ) (p : Value × List Nat) :
    Except Err (ArgumentedPolyGraph κ × ReadFrom κ) :=
  match o.iter (getIn extWrites k p.1) with
  | [] =>
    if fromInitial initialState k p.1 then do
      let g ← addInitialReads o extWrites k p.2 st.1
      .ok (g, addReaders o k 0 p.2 st.2)
    else if isNull p.1 then .ok st
    else .error (.reject s!"dirty read {k}: {p.1}")
  | [Ti] => do
    let g ← st.1.addEdges [Ti] (o.iter p.2) .wr
    .ok (g, addReaders o k Ti p.2 st.2)
  | _ => .error (.assertion "There shouldn't be two txns writing the same value for the same key!")

def addReads (o : SetOrder) (extWrites extReads : Index κ Value)
    (initialState : Option (Dict κ Value))
    (st : ArgumentedPolyGraph κ × ReadFrom κ) : Except Err (ArgumentedPolyGraph κ × ReadFrom κ) :=
  extReads.entries.foldlM (fun st p =>
    p.2.entries.foldlM (addRead o extWrites initialState p.1) st) st

/-- A reader of a version that also writes the key is the next writer. -/
def addWwpair (k : κ) (kWrites writeTxns : List Nat) (wwpairs : Wwpairs κ) (readTxn : Nat) :
    Except Err (Wwpairs κ) :=
  if readTxn ∈ kWrites then
    match writeTxns with
    | [] => do
      require (wwpairs.get? (k, 0)).isNone ""
      .ok wwpairs
    | Ti :: _ =>
      if (wwpairs.get? (k, Ti)).isSome then .error (.reject "versions diverge")
      else .ok (wwpairs.set (k, Ti) readTxn)
  else .ok wwpairs

def addWwpairs (o : SetOrder) (extWrites extReads : Index κ Value) : Except Err (Wwpairs κ) :=
  extReads.entries.foldlM (fun wwpairs p =>
    p.2.entries.foldlM (fun wwpairs q => do
      let writeTxns := o.iter (getIn extWrites p.1 q.1)
      require (writeTxns.length ≤ 1) "Two transactions wrote the same value to a key"
      (o.iter q.2).foldlM (addWwpair p.1 (kWritesFn extWrites p.1) writeTxns) wwpairs) wwpairs)
        Dict.empty

def finalRead (o : SetOrder) (extWrites : Index κ Value) (Tf : Nat)
    (st : ArgumentedPolyGraph κ × ReadFrom κ)
    (p : κ × Value) : Except Err (ArgumentedPolyGraph κ × ReadFrom κ) :=
  match o.iter (getIn extWrites p.1 p.2) with
  | [] => do
    let g ← st.1.addEdge 0 Tf .wr
    require (TkSetFn extWrites p.1 [0, Tf]).isEmpty "No txn can happen after Tf"
    .ok (g, addReaders o p.1 0 [Tf] st.2)
  | [Ti] => do
    let g ← st.1.addEdge Ti Tf .wr
    let g ← (o.iter (TkSetFn extWrites p.1 [Ti, Tf])).foldlM (fun g Tk => g.addEdge Tk Ti .ww) g
    .ok (g, addReaders o p.1 Ti [Tf] st.2)
  | _ => .error (.assertion "")

def processFinalState (o : SetOrder) (extWrites : Index κ Value) (Tf : Nat) (rsDict : Dict κ Value)
    (st : ArgumentedPolyGraph κ × ReadFrom κ) :
    Except Err (ArgumentedPolyGraph κ × ReadFrom κ) := do
  let (g, readfrom) ← rsDict.entries.foldlM (finalRead o extWrites Tf) st
  let g ← (List.range (g.nNodes - 1)).foldlM (fun g i => g.addEdge i Tf .cb) g
  .ok (g, readfrom)

def addFinal (o : SetOrder) (fullHistory : List (Entry (Mop κ Value))) (extWrites : Index κ Value)
    (st : ArgumentedPolyGraph κ × ReadFrom κ) :
    Except Err (ArgumentedPolyGraph κ × ReadFrom κ) := do
  let Tf := fullHistory.length - 1
  let (queryResult, deadResult) ← finalQuery fullHistory
  let queryRsDict ← convertRs2dict queryResult
  let deadRsDict ← convertRs2dict deadResult
  let st ← processFinalState o extWrites Tf queryRsDict st
  processFinalState o extWrites Tf deadRsDict st

/-- A key omitted by the query `q`. The source compares the number of the own
transaction, not the position of the query, with the position of an upsert. -/
def addOmitted (o : SetOrder) (allUpserts : Positions κ Value) (q : Nat × Nat)
    (g : ArgumentedPolyGraph κ) (k : κ) :
    Except Err (ArgumentedPolyGraph κ) :=
  addOmittedKey o allUpserts q.1 q.1 g k

def addRangeQuery (o : SetOrder) (fullHistory : List (Entry (Mop κ Value)))
    (allUpserts : Positions κ Value)
    (K : List κ) (g : ArgumentedPolyGraph κ)
    (q : Nat × Nat) : Except Err (ArgumentedPolyGraph κ) := do
  match ← mopAt fullHistory q.1 q.2 with
  | .range k1 k2 queryResult deadResult _ =>
    let _ ← convertRs2dict queryResult
    let _ ← convertRs2dict deadResult
    assertReturned k1 k2 queryResult deadResult
    (o.iter (otherKeys K k1 k2 queryResult deadResult)).foldlM (addOmitted o allUpserts q) g
  | _ => .error .valueError

structure KnownGraph (κ : Type) where
  g : ArgumentedPolyGraph κ
  readfrom : ReadFrom κ
  wwpairs : Wwpairs κ
  extWrites : Index κ Value

def createKnowngraph (o : SetOrder) (fullHistory : List (Entry (Mop κ Value)))
    (histories : List (List (Entry (Mop κ Value)))) (strongSession hasFinal : Bool) :
    Except Err (KnownGraph κ) := do
  let g := (ArgumentedPolyGraph.init fullHistory.length).setSessionOrder histories
  let g ← optionally strongSession (addSessionOrder · histories) g
  let initial ← initialState fullHistory
  let extWrites ← extIndex fullHistory extWritesFn
  let extReads ← extIndex fullHistory extReadsFn
  let g ← addInitialOrder g
  let st ← addReads o extWrites extReads initial (g, Dict.empty)
  let wwpairs ← addWwpairs o extWrites extReads
  let (g, readfrom) ← optionally hasFinal (addFinal o fullHistory extWrites) st
  let _ ← allIndex fullHistory allWritesFn
  let allUpserts ← allIndex fullHistory allUpsertFn
  let K ← allKeys fullHistory
  let queries ← getAllRangeQueries fullHistory
  let g ← (o.iter queries).foldlM (addRangeQuery o fullHistory allUpserts K) g
  .ok ⟨g, readfrom, wwpairs, extWrites⟩

/-- A chain that would be its own successor is a cycle of read-modify-writes. -/
def combineWrites (o : SetOrder) (chains : ChainTable κ) (wwpairs : Wwpairs κ) :
    Except Err (ChainTable κ) :=
  combineWritesWith o (fun chain1 chain2 =>
    if chain1 = chain2 then .error (.reject "cyclic dependency") else .ok ()) chains wwpairs

def genConstraints (o : SetOrder) (known : KnownGraph κ) :
    Except Err (ArgumentedPolyGraph κ × List Constraint) :=
  genConstraintsWith o (combineWrites o) known.g known.readfrom known.wwpairs known.extWrites

def constructEncoding (o : SetOrder) (fullHistory : List (Entry (Mop κ Value)))
    (histories : List (List (Entry (Mop κ Value)))) (strongSession hasFinal : Bool) :
    Except Err (ArgumentedPolyGraph κ × List Constraint) := do
  let known ← createKnowngraph o fullHistory histories strongSession hasFinal
  genConstraints o known

end AdyaSIChain

end Viper
