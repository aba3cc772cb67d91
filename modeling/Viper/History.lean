import Viper.Lib.PyData
import Mathlib.Order.Lattice

/-!
# Histories and the transaction abstractions (`utils/range_utils.py`)

A history is the list of committed transactions in log order; entry 0 is the
initial transaction, whose value is missing when the log has none. Keys are
any linear order, because range queries compare them; `ν` is the type of the
values a log format stores.
-/
namespace Viper

open Py

/-- The exceptions of the checker. Only `RejectException` is a verdict. -/
inductive Err where
  | reject : String → Err
  | assertion : String → Err
  | keyError : Err
  | typeError : Err
  | indexError : Err
  | valueError : Err
  | attributeError : Err
  | unboundLocalError : Err
  deriving DecidableEq, Repr

def require (b : Bool) (msg : String) : Except Err Unit :=
  if b then .ok () else .error (.assertion msg)

theorem require_eq_ok {b : Bool} {msg : String} {u : Unit} : require b msg = .ok u ↔ b = true := by
  cases b <;> simp [require]

/-- A verdict, as opposed to a failed assertion or lookup. -/
def Rejects {α : Type} (x : Except Err α) : Prop := ∃ msg, x = .error (.reject msg)

/-- An assertion, type or key error. -/
def Crashes {α : Type} (x : Except Err α) : Prop := (∃ e, x = .error e) ∧ ¬ Rejects x

theorem not_rejects_ok {α : Type} (a : α) : ¬ Rejects (.ok a) := by
  simp [Rejects]

theorem not_rejects_require (b : Bool) (msg : String) : ¬ Rejects (require b msg) := by
  cases b <;> simp [Rejects, require]

/-- A sequence rejects in its first part, or in the second after the first has returned. -/
theorem rejects_bind {α β : Type} {x : Except Err α} {f : α → Except Err β}
    (h : Rejects (x >>= f)) : Rejects x ∨ ∃ a, x = .ok a ∧ Rejects (f a) := by
  obtain ⟨msg, h⟩ := h
  rcases bind_eq_error.mp h with h | ⟨a, ha, h⟩
  · exact .inl ⟨msg, h⟩
  · exact .inr ⟨a, ha, msg, h⟩

theorem not_rejects_bind {α β : Type} {x : Except Err α} {f : α → Except Err β} (hx : ¬ Rejects x)
    (hf : ∀ a, ¬ Rejects (f a)) : ¬ Rejects (x >>= f) := by
  intro h
  rcases rejects_bind h with h | ⟨a, _, h⟩
  · exact hx h
  · exact hf a h

/-- A loop whose body gives no verdict gives none. -/
theorem not_rejects_foldlM {α σ : Type} {f : σ → α → Except Err σ} (hf : ∀ s a, ¬ Rejects (f s a))
    (l : List α) (s : σ) :
    ¬ Rejects (l.foldlM f s) := by
  induction l generalizing s with
  | nil => exact not_rejects_ok s
  | cons a l ih =>
    rw [List.foldlM_cons]
    exact not_rejects_bind (hf s a) ih

/-- Values of register logs: integers, the text 'nil' of an empty read, or the
`None` of a decoded null. -/
inductive Value where
  | int : Int → Value
  | str : String → Value
  | none : Value
  deriving DecidableEq, Repr

def Value.isInt : Value → Bool
  | .int _ => true
  | .str _ => false
  | .none => false

instance : ToString Value where
  toString
    | .int n => toString n
    | .str s => s
    | .none => "None"

/-- `constants.NULL_VALUE` -/
def NULL_VALUE : Value := .int 0

def isNull (v : Value) : Bool := v == NULL_VALUE

structure Record (κ ν : Type) where
  id : κ
  val : ν
  deriving DecidableEq, Repr

/-- Micro-operations. The optional flag of a range marks the final query. -/
inductive Mop (κ ν : Type) where
  | r (k : κ) (v : ν) (isDead : Bool)
  | w (k : κ) (v : ν) (succ : Bool)
  | i (k : κ) (v readV : ν) (isDead succ : Bool)
  | d (k : κ) (v readV : ν) (isDead succ : Bool)
  | range (k1 k2 : Option κ) (rs dead : List (Record κ ν)) (final : Option Bool)
  | append (k : κ) (v : ν)
  deriving DecidableEq, Repr

structure Entry (μ : Type) where
  id : Nat
  value : Option (List μ)
  deriving DecidableEq, Repr

section Bounds

variable {κ : Type} [LinearOrder κ]

def inBetween (k : κ) : Option κ → Option κ → Bool
  | some k1, some k2 => k1 ≤ k ∧ k ≤ k2
  | none, some k2 => k ≤ k2
  | some k1, none => k1 ≤ k
  | none, none => true

/-- `subset(K, k1, k2)`, with its four branches. -/
def subset (K : List κ) : Option κ → Option κ → List κ
  | none, none => K
  | none, some k2 => K.filter (fun k => k ≤ k2)
  | some k1, none => K.filter (fun k => k1 ≤ k)
  | some k1, some k2 => K.filter (fun k => k1 ≤ k ∧ k ≤ k2)

theorem mem_subset (K : List κ) (k1 k2 : Option κ) (k : κ) :
    k ∈ subset K k1 k2 ↔ k ∈ K ∧ inBetween k k1 k2 = true := by
  cases k1 <;> cases k2 <;> simp [subset, inBetween]

/-- The inline assertion `k1 <= id <= k2`, which a missing bound turns into a
type error. -/
def assertBounds (k1 k2 : Option κ) (id : κ) : Except Err Unit :=
  match k1 with
  | none => .error .typeError
  | some a =>
    if a ≤ id then
      match k2 with
      | none => .error .typeError
      | some b => require (id ≤ b) ""
    else .error (.assertion "")

end Bounds

section Transactions

variable {κ ν : Type} [LinearOrder κ] [DecidableEq ν]

def extWritesStep (m : Dict κ ν) : Mop κ ν → Except Err (Dict κ ν)
  | .w k v succ => .ok (if succ then m.set k v else m)
  | .i k v _ _ succ => .ok (if succ then m.set k v else m)
  | .d k v _ _ succ => do
    require succ ""
    .ok (m.set k v)
  | .append k v => .ok (m.set k v)
  | _ => .ok m

/-- The last successful write of every key. -/
def extWritesFn (txn : List (Mop κ ν)) : Except Err (Dict κ ν) :=
  txn.foldlM extWritesStep Dict.empty

/-- Keys already read or written, and the external reads found so far. -/
structure ReadState (κ ν : Type) where
  ignore : List κ
  map : Dict κ ν

def ReadState.see (st : ReadState κ ν) (k : κ) (v : ν) : ReadState κ ν :=
  if k ∈ st.ignore then st else ⟨st.ignore.insert k, st.map.set k v⟩

def extReadsRecord (k1 k2 : Option κ) (st : ReadState κ ν) (item : Record κ ν) :
    Except Err (ReadState κ ν) := do
  assertBounds k1 k2 item.id
  .ok (st.see item.id item.val)

def extReadsStep (st : ReadState κ ν) : Mop κ ν → Except Err (ReadState κ ν)
  | .range k1 k2 rs dead _ => do
    let st ← rs.foldlM (extReadsRecord k1 k2) st
    dead.foldlM (extReadsRecord k1 k2) st
  | .r k v _ => .ok (st.see k v)
  | .i k _ readV _ succ => do
    if k ∉ st.ignore then require succ ""
    .ok (st.see k readV)
  | .d k _ readV _ succ => do
    if k ∉ st.ignore then require succ ""
    .ok (st.see k readV)
  | .w k _ succ => .ok (if succ then { st with ignore := st.ignore.insert k } else st)
  | .append k _ => .ok { st with ignore := st.ignore.insert k }

/-- The reads that are not preceded by a read or a write of the same key. -/
def extReadsFn (txn : List (Mop κ ν)) : Except Err (Dict κ ν) := do
  let st ← txn.foldlM extReadsStep ⟨[], Dict.empty⟩
  .ok st.map

def checkValidRead (k : κ) (lastRw : Dict κ ν) (val : ν) (i : Nat) (writes : Dict (κ × ν) Nat) :
    Except Err Unit :=
  if (lastRw.get? k).any (· ≠ val) then
    .error (.reject "inconsistent read value as last write/read")
  else if (writes.get? (k, val)).any (fun j => i < j) then .error (.reject "Future read error")
  else .ok ()

/-- First pass of `check_INT`: the last position of every `w` of a value. -/
def intWrites (txn : List (Mop κ ν)) : Dict (κ × ν) Nat :=
  txn.zipIdx.foldl (fun writes p =>
    match p.1 with
    | .w k v _ => writes.set (k, v) p.2
    | _ => writes) Dict.empty

def intRecord (i : Nat) (writes : Dict (κ × ν) Nat) (lastRw : Dict κ ν)
    (item : Record κ ν) : Except Err (Dict κ ν) := do
  checkValidRead item.id lastRw item.val i writes
  .ok (lastRw.set item.id item.val)

def intStep (writes : Dict (κ × ν) Nat) (lastRw : Dict κ ν) (p : Mop κ ν × Nat) :
    Except Err (Dict κ ν) :=
  match p.1 with
  | .range k1 k2 rs dead _ => do
    let lastRw ← rs.foldlM (fun lastRw item => do
      require (inBetween item.id k1 k2) ""
      intRecord p.2 writes lastRw item) lastRw
    dead.foldlM (fun lastRw item => do
      assertBounds k1 k2 item.id
      intRecord p.2 writes lastRw item) lastRw
  | .r k v _ => do
    checkValidRead k lastRw v p.2 writes
    .ok (lastRw.set k v)
  | .d k v readV _ succ => do
    require succ ""
    checkValidRead k lastRw readV p.2 writes
    .ok (lastRw.set k v)
  | .w k v succ => .ok (if succ then lastRw.set k v else lastRw)
  | .append _ _ => .error (.assertion "")
  | .i _ _ _ _ _ => .ok lastRw

/-- Internal consistency of one transaction. -/
def checkINT (txn : List (Mop κ ν)) : Except Err Bool := do
  let _ ← txn.zipIdx.foldlM (intStep (intWrites txn)) Dict.empty
  .ok true

theorem checkINT_eq_true {txn : List (Mop κ Value)} {b : Bool} (h : checkINT txn = .ok b) :
    b = true := by
  rw [checkINT, bind_eq_ok] at h
  obtain ⟨_, _, hb⟩ := h
  exact (Except.ok.inj hb).symm

/-- A position index of the `w` micro-operations, successful or not. -/
def allUpsertStep (m : Dict κ (Dict ν Nat)) (p : Mop κ ν × Nat) :
    Except Err (Dict κ (Dict ν Nat)) :=
  match p.1 with
  | .w k v _ => do
    require (m.get2? k v).isNone ""
    .ok (m.set2 k v p.2)
  | _ => .ok m

def allUpsertFn (txn : List (Mop κ ν)) : Except Err (Dict κ (Dict ν Nat)) :=
  txn.zipIdx.foldlM allUpsertStep Dict.empty

def allWrite (m : Dict κ (Dict ν Nat)) (k : κ) (v : ν) (succ : Bool) (j : Nat) :
    Except Err (Dict κ (Dict ν Nat)) := do
  require (m.get2? k v).isNone ""
  .ok (if succ then m.set2 k v j else m)

def allWritesStep (m : Dict κ (Dict ν Nat)) (p : Mop κ ν × Nat) :
    Except Err (Dict κ (Dict ν Nat)) :=
  match p.1 with
  | .w k v succ => allWrite m k v succ p.2
  | .i k v _ _ succ => allWrite m k v succ p.2
  | .d k v _ _ succ => allWrite m k v succ p.2
  | .append k v => allWrite m k v false p.2
  | _ => .ok m

def allWritesFn (txn : List (Mop κ ν)) : Except Err (Dict κ (Dict ν Nat)) :=
  txn.zipIdx.foldlM allWritesStep Dict.empty

end Transactions

section Indices

variable {κ ν μ : Type} [LinearOrder κ] [DecidableEq ν]

/-- `{k: {v: {txn ids}}}` -/
abbrev Index (κ ν : Type) := Dict κ (Dict ν (List Nat))

/-- `utils.get_in` -/
def getIn (idx : Index κ ν) (k : κ) (v : ν) : List Nat := (idx.get2? k v).getD []

def addIndex (id : Nat) (idx : Index κ ν) (p : κ × ν) : Index κ ν :=
  idx.set2 p.1 p.2 ((getIn idx p.1 p.2).insert id)

/-- The loops over a history skip entry 0, and a last entry without a value. -/
def numbered (history : List (Entry μ)) : Except Err (List (Entry μ × Nat)) :=
  match history.getLast? with
  | none => .error .indexError
  | some e => .ok ((if e.value.isNone then history.dropLast else history).zipIdx.drop 1)

def txnOf (e : Entry μ) : Except Err (List μ) :=
  match e.value with
  | none => .error .typeError
  | some txn => .ok txn

def extIndexStep (extFn : List μ → Except Err (Dict κ ν)) (idx : Index κ ν) (p : Entry μ × Nat) :
    Except Err (Index κ ν) := do
  let txn ← txnOf p.1
  let extMap ← extFn txn
  .ok (extMap.entries.foldl (addIndex p.2) idx)

def extIndex (history : List (Entry μ)) (extFn : List μ → Except Err (Dict κ ν)) :
    Except Err (Index κ ν) := do
  let ps ← numbered history
  ps.foldlM (extIndexStep extFn) Dict.empty

/-- `{k: {v: (txn id, mop index)}}` -/
abbrev Positions (κ ν : Type) := Dict κ (Dict ν (Nat × Nat))

def addPosition (k : κ) (txnId : Nat) (idx : Positions κ ν) (p : ν × Nat) :
    Except Err (Positions κ ν) :=
  match idx.get2? k p.1 with
  | none => .ok (idx.set2 k p.1 (txnId, p.2))
  | some _ => .error (.assertion "")

def allIndexStep (allFn : List μ → Except Err (Dict κ (Dict ν Nat))) (idx : Positions κ ν)
    (p : Entry μ × Nat) : Except Err (Positions κ ν) := do
  let txn ← txnOf p.1
  let allMap ← allFn txn
  allMap.entries.foldlM (fun idx q => q.2.entries.foldlM (addPosition q.1 p.2) idx) idx

def allIndex (history : List (Entry μ)) (allFn : List μ → Except Err (Dict κ (Dict ν Nat))) :
    Except Err (Positions κ ν) := do
  let ps ← numbered history
  ps.foldlM (allIndexStep allFn) Dict.empty

/-- The set of transactions that externally write a key. -/
def kWritesFn (extWrites : Index κ ν) (key : κ) : List Nat :=
  match extWrites.get? key with
  | none => []
  | some vs => vs.entries.foldl (fun w p => w ∪ p.2) []

def TkSetFn (extWrites : Index κ ν) (key : κ) (exclude : List Nat) : List Nat :=
  diff (kWritesFn extWrites key) exclude

def kUpsertsFn (allUpserts : Positions κ ν) (key : κ) : List (Nat × Nat) :=
  match allUpserts.get? key with
  | none => []
  | some vs => vs.entries.foldl (fun w p => w.insert p.2) []

def rangeQueriesOf (i : Nat) (txn : List (Mop κ ν)) : List (Nat × Nat) :=
  txn.zipIdx.filterMap (fun p =>
    match p.1 with
    | .range _ _ _ _ _ => some (i, p.2)
    | _ => none)

/-- Positions of all range queries; the set is built in history order. -/
def getAllRangeQueries (history : List (Entry (Mop κ ν))) : Except Err (List (Nat × Nat)) := do
  let ps ← numbered history
  ps.foldlM (fun queries p => do
    let txn ← txnOf p.1
    .ok (queries ∪ rangeQueriesOf p.2 txn)) []

def keysOf (txn : List (Mop κ ν)) : List κ :=
  txn.filterMap (fun
    | .w k _ _ => some k
    | .i k _ _ _ _ => some k
    | .d k _ _ _ _ => some k
    | _ => none)

/-- All keys that some transaction writes, inserts or deletes. -/
def allKeys (history : List (Entry (Mop κ ν))) : Except Err (List κ) := do
  let ps ← numbered history
  ps.foldlM (fun keys p => do
    let txn ← txnOf p.1
    .ok (keys ∪ keysOf txn)) []

end Indices

section Registers

variable {κ : Type} [LinearOrder κ]

/-- `convert_rs2dict`: the last record of a key wins, and every value must be an integer. -/
def convertRs2dict (rs : List (Record κ Value)) : Except Err (Dict κ Value) :=
  rs.foldlM (fun d item => do
    require item.val.isInt ""
    .ok (d.set item.id item.val)) Dict.empty

def initialWrite (writes : Dict κ Value) : Mop κ Value → Except Err (Dict κ Value)
  | .w k v succ => do
    require succ "the write op in the initial txn must succeed"
    .ok (writes.set k v)
  | .r _ _ isDead => do
    require isDead "the write op in the initial txn must succeed"
    .error (.assertion "")
  | _ => .error .valueError

/-- `utils.initial_state`: `none` when the log has no initial transaction. -/
def initialState (fullHistory : List (Entry (Mop κ Value))) : Except Err (Option (Dict κ Value)) :=
  match fullHistory.head? with
  | none => .error .indexError
  | some e =>
    match e.value with
    | none => .ok none
    | some ops => do
      let writes ← ops.foldlM initialWrite Dict.empty
      .ok (some writes)

end Registers

end Viper
