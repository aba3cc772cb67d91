import Viper.History

/-!
# The log parsers (`parse/wr_range_parse.py`)

A log is decoded to lists of fields first. The EDN parser rebuilds every
micro-operation field by field, the JSON parser keeps it. `readMop` reads a
micro-operation by the positions of its fields, as `get_value` does.
-/
namespace Viper

open Py

namespace Parse

variable {κ : Type}

/-- The first field of a micro-operation. -/
inductive Kind where
  | r | w | i | d | range | append
  deriving DecidableEq, Repr

def Kind.name : Kind → String
  | .r => "r"
  | .w => "w"
  | .i => "i"
  | .d => "d"
  | .range => "range"
  | .append => "append"

/-- A field after the first. -/
inductive Field (κ : Type) where
  | key (k : κ)
  | val (v : Value)
  | flag (b : Bool)
  | records (rs : List (Record κ Value))
  deriving DecidableEq, Repr

/-- The `None` of both decoders, which is a missing bound or a value like any other. -/
@[match_pattern] def Field.null : Field κ := .val .none

/-- A micro-operation as a list: its kind, and the fields from position 1 on. -/
structure RawMop (κ : Type) where
  f : Kind
  fields : List (Field κ)
  deriving DecidableEq, Repr

namespace RawMop

/-- `mop[j]`, for a position after the first. -/
def at' (mop : RawMop κ) (j : Nat) : Except Err (Field κ) :=
  match mop.fields[j - 1]? with
  | none => .error .indexError
  | some x => .ok x

/-- `len(mop)` -/
def len (mop : RawMop κ) : Nat := mop.fields.length + 1

end RawMop

def Field.toKey : Field κ → Except Err κ
  | .key k => .ok k
  | _ => .error .typeError

def Field.toBound : Field κ → Except Err (Option κ)
  | .null => .ok none
  | .key k => .ok (some k)
  | _ => .error .typeError

def Field.toVal : Field κ → Except Err Value
  | .val v => .ok v
  | _ => .error .typeError

def Field.toFlag : Field κ → Except Err Bool
  | .flag b => .ok b
  | _ => .error .typeError

def Field.toRecords : Field κ → Except Err (List (Record κ Value))
  | .records rs => .ok rs
  | _ => .error .typeError

/-- The flag at the end of a range or of a read, if there is one. -/
def RawMop.flag? (mop : RawMop κ) (j : Nat) : Option Bool :=
  match mop.fields[j - 1]? with
  | some (.flag b) => some b
  | _ => none

/-- A micro-operation by the positions of its fields. -/
def readMop (mop : RawMop κ) : Except Err (Mop κ Value) :=
  match mop.f with
  | .r => do
    let k ← (← mop.at' 1).toKey
    let v ← (← mop.at' 2).toVal
    .ok (.r k v ((mop.flag? 3).getD false))
  | .w => do
    let k ← (← mop.at' 1).toKey
    let v ← (← mop.at' 2).toVal
    let succ ← (← mop.at' 3).toFlag
    .ok (.w k v succ)
  | .i => do
    let k ← (← mop.at' 1).toKey
    let v ← (← mop.at' 2).toVal
    let readV ← (← mop.at' 3).toVal
    let isDead ← (← mop.at' 4).toFlag
    let succ ← (← mop.at' 5).toFlag
    .ok (.i k v readV isDead succ)
  | .d => do
    let k ← (← mop.at' 1).toKey
    let v ← (← mop.at' 2).toVal
    let readV ← (← mop.at' 3).toVal
    let isDead ← (← mop.at' 4).toFlag
    let succ ← (← mop.at' 5).toFlag
    .ok (.d k v readV isDead succ)
  | .range => do
    require (5 ≤ mop.len ∧ mop.len ≤ 6) "Wrong size of range mop, you add more items?"
    let k1 ← (← mop.at' 1).toBound
    let k2 ← (← mop.at' 2).toBound
    let readValues ← (← mop.at' 3).toRecords
    let deadValues ← (← mop.at' 4).toRecords
    .ok (.range k1 k2 readValues deadValues (mop.flag? 5))
  | .append => do
    let k ← (← mop.at' 1).toKey
    let v ← (← mop.at' 2).toVal
    .ok (.append k v)

/-- A parsed transaction. Its id and the mark of the initial transaction may be missing. -/
structure ParsedTxn (κ : Type) where
  id : Option Nat
  value : Option (List (RawMop κ))
  isInitial : Option Bool
  deriving DecidableEq, Repr

/-- T0, before a log gives it a value. -/
def T0 : ParsedTxn κ := ⟨some 0, none, none⟩

/-- The micro-operations of a parsed transaction, for the functions of `utils/range_utils.py`. -/
def ParsedTxn.read (txn : ParsedTxn κ) : Except Err (List (Mop κ Value)) :=
  match txn.value with
  | none => .error .typeError
  | some mops => mops.mapM readMop

section Edn

/-- A decoded line. -/
structure EdnTxn (κ : Type) where
  type : String
  f : String
  value : List (RawMop κ)

/-- `convert_readv`, which `r` has in line. -/
def convertReadv : Field κ → Field κ
  | .null => .val (.str "nil")
  | v => v

/-- One micro-operation; `none` where the loop continues with the next. -/
def parseMopEdn (microOp : RawMop κ) : Except Err (Option (RawMop κ)) :=
  match microOp.f with
  | .append => .ok none
  | .range => do
    let k1 ← microOp.at' 1
    let k2 ← microOp.at' 2
    let readValues ← (← microOp.at' 3).toRecords
    let deadValues ← (← microOp.at' 4).toRecords
    .ok (some ⟨.range, [k1, k2, .records (readValues.map fun record => ⟨record.id, record.val⟩),
      .records (deadValues.map fun record => ⟨record.id, record.val⟩)]⟩)
  | .r => do
    let k ← microOp.at' 1
    let readV ← microOp.at' 2
    let isDead ← microOp.at' 3
    .ok (some ⟨.r, [k, convertReadv readV, isDead]⟩)
  | .i => do
    let _ ← microOp.at' 1
    let _ ← microOp.at' 2
    .error (.assertion "")
  | f => do
    -- `w` and `d`
    let k ← microOp.at' 1
    let v ← microOp.at' 2
    let readV ← microOp.at' 3
    if 5 ≤ microOp.len then
      let isDead ← microOp.at' 4
      let succ ← microOp.at' 5
      .ok (some ⟨f, [k, v, convertReadv readV, isDead, succ]⟩)
    else .ok (some ⟨f, [k, v, convertReadv readV]⟩)

/-- The body of the loop over the micro-operations. -/
def addMopEdn (value : List (RawMop κ)) (microOp : RawMop κ) : Except Err (List (RawMop κ)) := do
  match ← parseMopEdn microOp with
  | none => .ok value
  | some parsedMicroOp => .ok (value ++ [parsedMicroOp])

/-- `construct_single_txn4wrrange_edn` -/
def constructSingleTxnEdn (line : EdnTxn κ) (txnId : Nat) : Except Err (ParsedTxn κ) := do
  require (line.type = "ok" ∧ line.f = "txn") ""
  let value ← line.value.foldlM addMopEdn []
  .ok ⟨some txnId, some value, none⟩

/-- History, sessions and the next id, while the logs are read. -/
structure ParseState (κ : Type) where
  fullHistory : List (ParsedTxn κ)
  sessions : List (List (ParsedTxn κ))
  txnId : Nat

def ParseState.start : ParseState κ := ⟨[T0], [], 1⟩

/-- The body of the loop over the lines of a log. -/
def ednLine {α : Type} (callback : α → Nat → Except Err (ParsedTxn κ))
    (st : ParseState κ × List (ParsedTxn κ)) (line : α) :
    Except Err (ParseState κ × List (ParsedTxn κ)) := do
  require (st.1.txnId = st.1.fullHistory.length) ""
  let curTxn ← callback line st.1.txnId
  .ok ({ st.1 with fullHistory := st.1.fullHistory ++ [curTxn], txnId := st.1.txnId + 1 },
    st.2 ++ [curTxn])

/-- The body of the loop over the logs. -/
def ednLog {α : Type} (callback : α → Nat → Except Err (ParsedTxn κ)) (st : ParseState κ)
    (lines : List α) :
    Except Err (ParseState κ) := do
  let (st, historyThisLog) ← lines.foldlM (ednLine callback) (st, [])
  .ok { st with sessions := st.sessions ++ [historyThisLog] }

def constructAllTxnsEdn {α : Type} (logs : List (List α))
    (callback : α → Nat → Except Err (ParsedTxn κ)) :
    Except Err (List (ParsedTxn κ) × List (List (ParsedTxn κ))) := do
  let st ← logs.foldlM (ednLog callback) ParseState.start
  .ok (st.fullHistory, st.sessions)

end Edn

section Json

variable [LinearOrder κ]

/-- A decoded transaction of a log. -/
structure JsonTxn (κ : Type) where
  value : List (RawMop κ)
  isInitial : Option Bool

/-- `"isInitial" in txn and txn["isInitial"]` -/
def JsonTxn.flagged (txn : JsonTxn κ) : Bool := txn.isInitial.getD false

/-- The writes that stand for the one range query of an initial transaction. -/
def initialWrites (rangeMop : RawMop κ) : Except Err (List (RawMop κ)) := do
  let k1 ← rangeMop.at' 1
  let k2 ← rangeMop.at' 2
  require (k1 = .val (.str "nil") ∧ k2 = .val (.str "nil")) ""
  let readValues ← (← rangeMop.at' 3).toRecords
  let deadValues ← (← rangeMop.at' 4).toRecords
  .ok ((readValues ++ deadValues).map fun item => ⟨.w, [.key item.id, .val item.val, .flag true]⟩)

/-- An initial transaction keeps its writes under id 0, or gets new writes and no id. -/
def initialTxn (txn : JsonTxn κ) : Except Err (ParsedTxn κ) :=
  match txn.value with
  | [⟨.range, fields⟩] => do
    let writeMops ← initialWrites ⟨.range, fields⟩
    .ok ⟨none, some writeMops, txn.isInitial⟩
  | mops => do
    mops.forM (fun mop => require (mop.f = .w) ("mop[0] is " ++ mop.f.name))
    .ok ⟨some 0, some mops, txn.isInitial⟩

/-- `None if mop[j] == "nil" else mop[j]` -/
def boundOfJson : Field κ → Field κ
  | .val (.str "nil") => .null
  | x => x

def boundsOfJson (mop : RawMop κ) : Except Err (RawMop κ) :=
  match mop.f, mop.fields with
  | .range, k1 :: k2 :: rest => .ok ⟨.range, boundOfJson k1 :: boundOfJson k2 :: rest⟩
  | .range, _ => .error .indexError
  | f, fields => .ok ⟨f, fields⟩

/-- The id of a transaction, and the writes of an initial one. -/
def identifyTxn (unparsedTxn : JsonTxn κ) (txnId : Nat) : Except Err (ParsedTxn κ) :=
  if unparsedTxn.flagged then initialTxn unparsedTxn
  else .ok ⟨some txnId, some unparsedTxn.value, unparsedTxn.isInitial⟩

/-- One transaction of a log: the parsed transaction and the next id. -/
def parseTxnJson (unparsedTxn : JsonTxn κ) (txnId : Nat) : Except Err (ParsedTxn κ × Nat) := do
  let txn ← identifyTxn unparsedTxn txnId
  let value ← (txn.value.getD []).mapM boundsOfJson
  let mops ← value.mapM readMop
  let consistent ← checkINT mops
  if consistent then
    .ok ({ txn with value := some value }, if unparsedTxn.flagged then txnId else txnId + 1)
  else .error (.reject "INT error")

/-- The body of the loop over the transactions of a log. -/
def jsonTxnStep (st : List (ParsedTxn κ) × Nat) (unparsedTxn : JsonTxn κ) :
    Except Err (List (ParsedTxn κ) × Nat) := do
  let (txn, txnId) ← parseTxnJson unparsedTxn st.2
  .ok (st.1 ++ [txn], txnId)

/-- `construct_single_txn4wrrange_json` -/
def constructSingleTxnJson (lines : List (JsonTxn κ)) (txnId : Nat) :
    Except Err (List (ParsedTxn κ) × Nat) :=
  lines.foldlM jsonTxnStep ([], txnId)

def isInitialTxn (txn : ParsedTxn κ) : Bool := txn.isInitial.getD false

def isInitialHistory : List (ParsedTxn κ) → Bool
  | [txn] => isInitialTxn txn
  | _ => false

/-- The body of the loop over the logs. -/
def jsonLog {α : Type} (callback : α → Nat → Except Err (List (ParsedTxn κ) × Nat))
    (st : ParseState κ) (lines : α) :
    Except Err (ParseState κ) := do
  let (historyThisThread, txnId) ← callback lines st.txnId
  if isInitialHistory historyThisThread then
    .ok { st with
      fullHistory := st.fullHistory.set 0 ((historyThisThread.head?).getD T0), txnId := txnId }
  else .ok ⟨st.fullHistory ++ historyThisThread, st.sessions ++ [historyThisThread], txnId⟩

def constructAllTxnsJson {α : Type} (logs : List α)
    (callback : α → Nat → Except Err (List (ParsedTxn κ) × Nat)) :
    Except Err (List (ParsedTxn κ) × List (List (ParsedTxn κ))) := do
  let st ← logs.foldlM (jsonLog callback) ParseState.start
  .ok (st.fullHistory, st.sessions)

end Json

end Parse

end Viper
