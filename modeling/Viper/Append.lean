import Viper.ChainEncoding

/-!
# The list-append builder (`parse/append_parse.py`, `buildgraph/build_graph4append.py`)

A transaction of a list-append log appends elements to lists and reads whole
lists. A list that was read names the versions of its key in order, so next to
read-modify-writes also the neighbours in a list are known successors.
-/
namespace Viper

open Py

/-- Values of a list-append history: the text 'nil' of an empty read, an
appended element, or a list that was read. No appended element is the reserved
text 'nil' itself. -/
inductive ListValue (ν : Type) where
  | nil
  | elem (x : ν)
  | list (xs : List ν)
  deriving DecidableEq, Repr

namespace Append

variable {κ ν : Type}

/-- A micro-operation of the log, with EDN's `nil` as `none`. The elements are not
the reserved text 'nil', by which the source marks an empty read. -/
inductive LogMop (κ ν : Type) where
  | append (k : κ) (x : ν)
  | r (k : κ) (v : Option (List ν))
  deriving DecidableEq, Repr

/-- A line of the log, read by the EDN library. -/
structure LogTxn (κ ν : Type) where
  process : Nat
  value : List (LogMop κ ν)
  deriving DecidableEq, Repr

def parseMop : LogMop κ ν → Mop κ (ListValue ν)
  | .append k x => .append k (.elem x)
  | .r k none => .r k .nil false
  | .r k (some []) => .r k .nil false
  | .r k (some (x :: xs)) => .r k (.list (x :: xs)) false

def parseSingleTxn (line : LogTxn κ ν) (txnId : Nat) : Entry (Mop κ (ListValue ν)) :=
  ⟨txnId, some (line.value.map parseMop)⟩

/-- All transactions behind an initial one without a value, and the sessions in
the order in which the set of processes is enumerated. -/
def parse (o : SetOrder) (lines : List (LogTxn κ ν)) :
    List (Entry (Mop κ (ListValue ν))) × List (List (Entry (Mop κ (ListValue ν)))) :=
  let numbered := lines.zipIdx 1
  let fullHistory := ⟨0, none⟩ :: numbered.map (fun p => parseSingleTxn p.1 p.2)
  let histories : Dict Nat (List (Entry (Mop κ (ListValue ν)))) :=
    numbered.foldl (fun histories p =>
    histories.set p.1.process (histories.getD p.1.process [] ++ [parseSingleTxn p.1 p.2]))
      Dict.empty
  let tids := o.iter (lines.foldl (fun tids line => tids.insert line.process) [])
  (fullHistory, tids.map (fun tid => histories.getD tid []))

variable [LinearOrder κ] [DecidableEq ν]

/-- `f, k, v = mop` only fits an append or a read. -/
def extWritesMop (i : Nat) (allWrites : Index κ (ListValue ν)) :
    Mop κ (ListValue ν) → Except Err (Index κ (ListValue ν))
  | .append k v => .ok (addIndex i allWrites (k, v))
  | .r _ _ _ => .ok allWrites
  | _ => .error .valueError

/-- Every append, not only the last one of a transaction. -/
def extWritesFn (fullHistory : List (Entry (Mop κ (ListValue ν)))) :
    Except Err (Index κ (ListValue ν)) :=
  fullHistory.zipIdx.foldlM (fun allWrites p =>
    if p.1.id = 0 then .ok allWrites
    else do
      let txn ← txnOf p.1
      txn.foldlM (extWritesMop p.2) allWrites) Dict.empty

/-- The graph, `readfrom` and `wwpairs` while `create_knowngraph` runs. -/
structure KnownGraph (κ : Type) where
  g : ArgumentedPolyGraph κ
  readfrom : ReadFrom κ
  wwpairs : Wwpairs κ

namespace KnownGraph

def addEdge (st : KnownGraph κ) (src dst : Nat) (type : EdgeType) : Except Err (KnownGraph κ) := do
  let g ← st.g.addEdge src dst type
  .ok { st with g := g }

def addEdges (st : KnownGraph κ) (srcList dstList : List Nat) (type : EdgeType) :
    Except Err (KnownGraph κ) :=
  srcList.foldlM (fun st src => dstList.foldlM (fun st dst => st.addEdge src dst type) st) st

/-- `readfrom[(k, writer)].add(read_txn)` -/
def addReader (st : KnownGraph κ) (k : κ) (writer readTxn : Nat) : KnownGraph κ :=
  { st with readfrom :=
    st.readfrom.set (k, writer) ((st.readfrom.getD (k, writer) []).insert readTxn) }

/-- `add_wwpairs` behind its test for another successor. -/
def addWwpairs (st : KnownGraph κ) (k : κ) (txn1 txn2 : Nat) : Except Err (KnownGraph κ) :=
  if (st.wwpairs.get? (k, txn1)).any (· ≠ txn2) then .error (.reject "versions diverge")
  else .ok { st with wwpairs := st.wwpairs.set (k, txn1) txn2 }

end KnownGraph

/-- `v == 'nil'`: the readers begin before any append to the key commits. -/
def addNilRead (o : SetOrder) (extWrites : Index κ (ListValue ν)) (k : κ) (readTxns : List Nat)
    (st : KnownGraph κ) : Except Err (KnownGraph κ) := do
  require (o.iter (getIn extWrites k .nil)).isEmpty ""
  let st ← st.addEdges [0] (o.iter readTxns) .wr
  let st ← (o.iter readTxns).foldlM (fun st readTxn => do
    let st ← st.addEdges [readTxn] (o.iter (diff (kWritesFn extWrites k) [readTxn])) .rw
    .ok (st.addReader k 0 readTxn)) st
  require (st.wwpairs.get? (k, 0)).isNone ""
  .ok st

/-- A reader of the version of `Tj` is its successor if it also appends to the key. -/
def addVersionReader (extWrites : Index κ (ListValue ν)) (k : κ) (Tj : Nat) (st : KnownGraph κ)
    (readTxn : Nat) :
    Except Err (KnownGraph κ) :=
  let st := st.addReader k Tj readTxn
  if readTxn ∈ kWritesFn extWrites k then st.addWwpairs k Tj readTxn else .ok st

/-- Neighbours in a list come from one transaction or from successive ones. -/
def addNeighbours (o : SetOrder) (extWrites : Index κ (ListValue ν)) (k : κ) (st : KnownGraph κ)
    (q : ν × ν) :
    Except Err (KnownGraph κ) :=
  match o.iter (getIn extWrites k (.elem q.1)), o.iter (getIn extWrites k (.elem q.2)) with
  | [txnI], [txnJ] => if txnJ ≠ txnI then st.addWwpairs k txnI txnJ else .ok st
  | _, _ => .error (.assertion "")

/-- `op_tk[2] in v` -/
def occursIn (v : ListValue ν) (xs : List ν) : Bool :=
  match v with
  | .elem x => x ∈ xs
  | _ => false

/-- A reader `Ti` of `xs` begins before a transaction commits whose append it misses. -/
def addMissed (k : κ) (xs : List ν) (Ti Tk : Nat) (st : KnownGraph κ) :
    Mop κ (ListValue ν) → Except Err (KnownGraph κ)
  | .append k' v => if k' = k then if occursIn v xs then .ok st
      else st.addEdge Ti Tk .rw else .ok st
  | _ => .ok st

def txnAt (fullHistory : List (Entry (Mop κ (ListValue ν)))) (i : Nat) :
    Except Err (List (Mop κ (ListValue ν))) :=
  match fullHistory[i]? with
  | none => .error .indexError
  | some e => txnOf e

/-- A list `xs` of key `k` and the transactions that read it. -/
def addListRead (o : SetOrder) (fullHistory : List (Entry (Mop κ (ListValue ν))))
    (extWrites : Index κ (ListValue ν))
    (k : κ) (xs : List ν) (readTxns : List Nat) (st : KnownGraph κ) : Except Err (KnownGraph κ) :=
  match xs.getLast? with
  | none => .error .indexError
  | some x =>
    match o.iter (getIn extWrites k (.elem x)) with
    | [Tj] => do
      let st ← st.addEdges [Tj] (o.iter readTxns) .wr
      let st ← (o.iter readTxns).foldlM (addVersionReader extWrites k Tj) st
      let st ← (xs.zip xs.tail).foldlM (addNeighbours o extWrites k) st
      (o.iter readTxns).foldlM (fun st Ti =>
        (o.iter (diff (kWritesFn extWrites k) [Ti, Tj])).foldlM (fun st Tk => do
          let txn ← txnAt fullHistory Tk
          txn.foldlM (addMissed k xs Ti Tk) st) st) st
    | _ => .error (.reject "can't find the corresponding write")

/-- One value of key `k` and the transactions that externally read it. -/
def addRead (o : SetOrder) (fullHistory : List (Entry (Mop κ (ListValue ν))))
    (extWrites : Index κ (ListValue ν))
    (k : κ) (st : KnownGraph κ) (p : ListValue ν × List Nat) : Except Err (KnownGraph κ) :=
  match p.1 with
  | .nil => addNilRead o extWrites k p.2 st
  | .list xs => addListRead o fullHistory extWrites k xs p.2 st
  | .elem _ => .error .typeError

/-- The known graph, and the index of all appends. -/
def createKnowngraph (o : SetOrder) (fullHistory : List (Entry (Mop κ (ListValue ν))))
    (histories : List (List (Entry (Mop κ (ListValue ν))))) (strongSession : Bool) :
    Except Err (KnownGraph κ × Index κ (ListValue ν)) := do
  let g := (ArgumentedPolyGraph.init fullHistory.length).setSessionOrder histories
  let g ← optionally strongSession (addSessionOrder · histories) g
  let extWrites ← extWritesFn fullHistory
  let extReads ← extIndex fullHistory extReadsFn
  let g ← addInitialOrder g
  let st ← extReads.entries.foldlM (fun st p =>
    p.2.entries.foldlM (addRead o fullHistory extWrites p.1) st) ⟨g, Dict.empty, Dict.empty⟩
  .ok (st, extWrites)

/-- Unlike the chain builder, nothing tests whether a chain is its own successor. -/
def combineWrites [ToString κ] (o : SetOrder) (chains : ChainTable κ) (wwpairs : Wwpairs κ) :
    Except Err (ChainTable κ) :=
  combineWritesWith o (fun _ _ => .ok ()) chains wwpairs

def genConstraints [ToString κ] (o : SetOrder) (st : KnownGraph κ)
    (extWrites : Index κ (ListValue ν)) :
    Except Err (ArgumentedPolyGraph κ × List Constraint) :=
  genConstraintsWith o (combineWrites o) st.g st.readfrom st.wwpairs extWrites

def constructEncoding [ToString κ] (o : SetOrder) (fullHistory : List (Entry (Mop κ (ListValue ν))))
    (histories : List (List (Entry (Mop κ (ListValue ν))))) (strongSession : Bool) :
    Except Err (ArgumentedPolyGraph κ × List Constraint) := do
  let (st, extWrites) ← createKnowngraph o fullHistory histories strongSession
  genConstraints o st extWrites

/-- `construct_graph_from_log` on the lines of a log. -/
def constructGraphFromLog [ToString κ] (o : SetOrder) (lines : List (LogTxn κ ν))
    (strongSession : Bool) :
    Except Err (ArgumentedPolyGraph κ × List Constraint) :=
  constructEncoding o (parse o lines).1 (parse o lines).2 strongSession

end Append

end Viper
