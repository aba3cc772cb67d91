import Viper.FinalHistory
import Viper.LogFormats
import Viper.Renumbering

/-!
# From JSON logs to a verdict

Every log file holds the transactions of one session, or the initial transaction
alone. The parser numbers the transactions in the order in which the files are
listed. The verdict of algorithm 4 does not depend on that order; neither does
the verdict of algorithm 6 on logs without range queries.
-/
namespace Viper

open Py Numbering

namespace Parse

section Logs

variable {κ : Type}

/-- The contents of a log file. -/
inductive Log (κ : Type) where
  | session (txns : List (List (Mop κ Value)))
  | initial (writes : List (κ × Value))

def Log.session? : Log κ → Option (List (List (Mop κ Value)))
  | .session txns => some txns
  | .initial _ => none

def Log.initial? : Log κ → Option (List (κ × Value))
  | .session _ => none
  | .initial writes => some writes

def initialMops (writes : List (κ × Value)) : List (Mop κ Value) :=
  writes.map fun p => .w p.1 p.2 true

/-- A log file, decoded. -/
def Log.json : Log κ → List (JsonTxn κ)
  | .session txns => txns.map jsonTxn
  | .initial writes => [⟨(initialMops writes).map (writeMop (.val (.str "nil"))), some true⟩]

def sessionsOf (logs : List (Log κ)) : List (List (List (Mop κ Value))) :=
  logs.filterMap Log.session?

/-- The initial transaction; the last one, if there are several. -/
def initialOf (logs : List (Log κ)) : Option (List (κ × Value)) :=
  (logs.filterMap Log.initial?).getLast?

def entryOf (p : Nat × List (Mop κ Value)) : Entry (Mop κ Value) := ⟨p.1, some p.2⟩

/-- The history that the logs describe. -/
def historyOf (logs : List (Log κ)) : List (Entry (Mop κ Value)) :=
  ⟨0, (initialOf logs).map initialMops⟩ :: (numberFrom 1 (sessionsOf logs).flatten).map entryOf

def historiesOf (logs : List (Log κ)) : List (List (Entry (Mop κ Value))) :=
  (numberAll 1 (sessionsOf logs)).map (·.map entryOf)

/-- A parsed transaction, as the graph builders take it. They read ids in sessions only. -/
def ParsedTxn.entry (txn : ParsedTxn κ) : Except Err (Entry (Mop κ Value)) :=
  match txn.value with
  | none => .ok ⟨txn.id.getD 0, none⟩
  | some mops => do
    let value ← mops.mapM readMop
    .ok ⟨txn.id.getD 0, some value⟩

/-- `txn['id']` -/
def readId : Option Nat → Except Err Nat
  | none => .error .keyError
  | some id => .ok id

/-- A loop over the neighbours in the sessions. -/
def readIds {α : Type} (visit : α → Nat → Nat → Except Err α) (ids : List (List (Option Nat)))
    (a : α) : Except Err α :=
  ids.foldlM (fun a l => (l.zip l.tail).foldlM (fun a p => do
    let src ← readId p.1
    let dst ← readId p.2
    visit a src dst) a) a

/-- The parser's transactions for numbered ones. -/
def parsedOf (p : Nat × List (Mop κ Value)) : ParsedTxn κ := jsonParsed p.1 p.2

theorem initialMops_writes (writes : List (κ × Value)) :
    ∀ mop ∈ initialMops writes, ∃ k v, mop = .w k v true := by
  intro mop hm
  obtain ⟨p, _, rfl⟩ := List.mem_map.mp hm
  exact ⟨p.1, p.2, rfl⟩

theorem parsedFrom_eq (n : Nat) (txns : List (List (Mop κ Value))) :
    parsedFrom jsonParsed n txns = (numberFrom n txns).map parsedOf := by
  rw [parsedFrom, numberFrom, List.map_map]
  rfl

theorem entry_parsedOf (p : Nat × List (Mop κ Value)) : (parsedOf p).entry = .ok (entryOf p) := by
  have hread : ((p.2).map (writeMop .null)).mapM readMop = .ok p.2 :=
    read_map_writeMop none p.2 none
  simp only [parsedOf, jsonParsed, ParsedTxn.entry, hread, ok_bind, entryOf, Option.getD_some]

theorem mapM_entry (l : List (Nat × List (Mop κ Value))) :
    (l.map parsedOf).mapM ParsedTxn.entry = .ok (l.map entryOf) := by
  rw [List.mapM_map]
  exact mapM_eq_map fun p _ => entry_parsedOf p

/-- No id is missing in the sessions of the logs. -/
theorem readIds_named {α : Type} (visit : α → Nat → Nat → Except Err α)
    (histories : List (List (Entry (Mop κ Value)))) (a : α) :
    readIds visit (histories.map (·.map fun e => some e.id)) a =
      histories.foldlM (fun a txns =>
        (txns.zip txns.tail).foldlM (fun a p => visit a p.1.id p.2.id) a) a := by
  have hzip : ∀ txns : List (Entry (Mop κ Value)),
      (txns.map fun e => some e.id).zip (txns.map fun e => some e.id).tail =
        (txns.zip txns.tail).map fun p => (some p.1.id, some p.2.id) := by
    intro txns
    rw [← List.map_tail, List.zip_map]
    rfl
  rw [readIds, List.foldlM_map]
  simp only [hzip, List.foldlM_map, readId, ok_bind]

end Logs

section Json

variable {κ : Type} [LinearOrder κ]

/-- History and sessions of decoded logs. -/
def readLogsJson (logs : List (List (JsonTxn κ))) :
    Except Err (List (Entry (Mop κ Value)) × List (List (Entry (Mop κ Value)))) := do
  let (fullHistory, histories) ← constructAllTxnsJson logs constructSingleTxnJson
  let fullHistory ← fullHistory.mapM ParsedTxn.entry
  let histories ← histories.mapM (·.mapM ParsedTxn.entry)
  .ok (fullHistory, histories)

/-- The ids in the sessions of decoded logs. Only an initial query has none. -/
def sessionIds (logs : List (List (JsonTxn κ))) : List (List (Option Nat)) :=
  match constructAllTxnsJson logs constructSingleTxnJson with
  | .error _ => []
  | .ok (_, histories) => histories.map (·.map ParsedTxn.id)

/-- The initial transaction, parsed. -/
def initialParsed (writes : List (κ × Value)) : ParsedTxn κ :=
  ⟨some 0, some ((initialMops writes).map (writeMop .null)), some true⟩

theorem initialTxn_writes (writes : List (κ × Value)) :
    initialTxn ⟨(initialMops writes).map (writeMop (.val (.str "nil"))), some true⟩ =
      .ok ⟨some 0, some ((initialMops writes).map (writeMop (.val (.str "nil")))), some true⟩ := by
  have hwrites : ∀ writes : List (κ × Value),
      ((initialMops writes).map (writeMop (.val (.str "nil")))).forM
      (fun mop => require (mop.f = .w) ("mop[0] is " ++ mop.f.name)) = .ok () := by
    intro writes
    induction writes with
    | nil => rfl
    | cons p writes ih => exact ih
  cases writes with
  | nil => rfl
  | cons p writes =>
    have hall := hwrites (p :: writes)
    simp only [initialTxn, initialMops, List.map_cons, writeMop] at hall ⊢
    rw [hall]
    rfl

theorem constructSingleTxnJson_initial (writes : List (κ × Value)) (n : Nat) :
    constructSingleTxnJson (Log.initial writes).json n = .ok ([initialParsed writes], n) := by
  have hbounds : ((initialMops writes).map (writeMop (.val (.str "nil")))).mapM boundsOfJson =
      .ok ((initialMops writes).map (writeMop .null)) := by
    rw [List.mapM_map]
    exact mapM_eq_map fun mop _ => boundsOfJson_writeMop mop
  have hread : ((initialMops writes).map (writeMop .null)).mapM readMop =
    .ok (initialMops writes) :=
    read_map_writeMop none _ none
  have hid := initialTxn_writes writes
  have hcheck : checkINT (initialMops writes) = .ok true :=
    checkINT_writes (initialMops_writes writes)
  have hparse :
      parseTxnJson ⟨(initialMops writes).map (writeMop (.val (.str "nil"))), some true⟩ n =
      .ok (initialParsed writes, n) := by
    simp only [parseTxnJson, identifyTxn, JsonTxn.flagged, Option.getD_some, if_true, hid, ok_bind,
      hbounds, hread, hcheck]
    rfl
  simp only [constructSingleTxnJson, Log.json, List.foldlM_cons, jsonTxnStep, hparse, ok_bind,
    List.foldlM_nil, List.nil_append]
  rfl

/-- The loop over the logs. T0 is the first entry before and after. -/
theorem foldlM_jsonLog (logs : List (Log κ)) (first : ParsedTxn κ) (done : List (ParsedTxn κ))
    (sessions : List (List (ParsedTxn κ))) (n : Nat) :
    (logs.map Log.json).foldlM (jsonLog constructSingleTxnJson) ⟨first :: done, sessions, n⟩ =
      (checkAll (sessionsOf logs).flatten >>= fun _ =>
        .ok ⟨((initialOf logs).map initialParsed).getD first ::
          (done ++ (numberFrom n (sessionsOf logs).flatten).map parsedOf),
          sessions ++ (numberAll n (sessionsOf logs)).map (·.map parsedOf),
          n + (sessionsOf logs).flatten.length⟩) := by
  induction logs generalizing first done sessions n with
  | nil => simp [sessionsOf, initialOf, checkAll, numberAll, numberFrom, pure, Except.pure]
  | cons log logs ih =>
    cases log with
    | initial writes =>
      have hstep : jsonLog constructSingleTxnJson ⟨first :: done, sessions, n⟩
          (Log.initial writes).json =
          .ok ⟨initialParsed writes :: done, sessions, n⟩ := by
        simp only [jsonLog, constructSingleTxnJson_initial, ok_bind]
        rfl
      have hsessions : sessionsOf (Log.initial writes :: logs) = sessionsOf logs := rfl
      have hinitial : ((initialOf (Log.initial writes :: logs)).map initialParsed).getD first =
          ((initialOf logs).map initialParsed).getD (initialParsed writes) := by
        simp only [initialOf, List.filterMap_cons, Log.initial?, List.getLast?_cons]
        cases (logs.filterMap Log.initial?).getLast? <;> rfl
      rw [List.map_cons, List.foldlM_cons, hstep, ok_bind, ih, hsessions, hinitial]
    | session txns =>
      have hsessions : sessionsOf (Log.session txns :: logs) = txns :: sessionsOf logs := rfl
      have hinitial : initialOf (Log.session txns :: logs) = initialOf logs := rfl
      have hstep : jsonLog constructSingleTxnJson ⟨first :: done, sessions, n⟩
          (Log.session txns).json =
          (checkAll txns >>= fun _ => .ok ⟨first :: (done ++ (numberFrom n txns).map parsedOf),
            sessions ++ [(numberFrom n txns).map parsedOf], n + txns.length⟩) := by
        have hno : isInitialHistory ((numberFrom n txns).map parsedOf) = false := by
          rw [← parsedFrom_eq]
          exact isInitialHistory_parsedFrom n txns
        simp only [jsonLog, Log.json, constructSingleTxnJson_eq, parsedFrom_eq]
        cases checkAll txns with
        | error e => rfl
        | ok _ => simp only [ok_bind, hno, Bool.false_eq_true, if_false, List.cons_append]
      rw [List.map_cons, List.foldlM_cons, hstep, hsessions, hinitial, List.flatten_cons,
        checkAll_append]
      cases checkAll txns with
      | error e => rfl
      | ok _ =>
        simp only [ok_bind]
        rw [ih]
        simp only [numberAll, numberFrom, List.zipIdx_append, List.map_append, List.map_cons,
          List.append_assoc, List.singleton_append, List.length_append, Nat.add_assoc]

/-- The parser recovers the history from the logs if `check_INT` passes all its transactions. -/
theorem readLogsJson_eq (logs : List (Log κ)) : readLogsJson (logs.map Log.json) =
    (checkAll (sessionsOf logs).flatten >>= fun _ => .ok (historyOf logs, historiesOf logs)) := by
  have hfirst : (((initialOf logs).map initialParsed).getD T0).entry =
      .ok ⟨0, (initialOf logs).map initialMops⟩ := by
    cases initialOf logs with
    | none => rfl
    | some writes =>
      have hread : ((initialMops writes).map (writeMop .null)).mapM readMop =
        .ok (initialMops writes) :=
        read_map_writeMop none _ none
      simp only [Option.map_some, Option.getD_some, initialParsed, ParsedTxn.entry, hread, ok_bind]
  have hsessions : ((numberAll 1 (sessionsOf logs)).map (·.map parsedOf)).mapM
      (·.mapM ParsedTxn.entry) =
      .ok (historiesOf logs) := by
    rw [List.mapM_map]
    exact mapM_eq_map fun l _ => mapM_entry l
  rw [readLogsJson, constructAllTxnsJson, ParseState.start, foldlM_jsonLog]
  cases checkAll (sessionsOf logs).flatten with
  | error e => rfl
  | ok _ =>
    simp only [ok_bind, List.nil_append, List.mapM_cons, hfirst, mapM_entry, hsessions]
    rfl

theorem sessionIds_eq (logs : List (Log κ)) (h : checkAll (sessionsOf logs).flatten = .ok ()) :
    sessionIds (logs.map Log.json) = (historiesOf logs).map (·.map fun e => some e.id) := by
  rw [sessionIds, constructAllTxnsJson, ParseState.start, foldlM_jsonLog, h]
  simp only [ok_bind, List.nil_append, historiesOf, List.map_map, Function.comp_def]
  rfl

end Json

section Facts

variable {κ : Type} {logs logs' : List (Log κ)}

/-- The transactions of the history are the numbered ones. -/
theorem txnAt_historyOf {i : Nat} {txn : List (Mop κ Value)} :
    TxnAt (historyOf logs) i txn ↔ (i, txn) ∈ (numberAll 1 (sessionsOf logs)).flatten := by
  rw [flatten_numberAll, mem_numberFrom]
  cases i with
  | zero => simp [TxnAt]
  | succ i =>
    simp only [TxnAt, historyOf, List.getElem?_cons_succ, numberFrom, List.map_map,
      List.getElem?_map, List.getElem?_zipIdx]
    rw [Nat.add_sub_cancel]
    cases (sessionsOf logs).flatten[i]? with
    | none => simp
    | some txn' => simp [entryOf]

theorem length_historyOf : (historyOf logs).length = (sessionsOf logs).flatten.length + 1 := by
  simp [historyOf, numberFrom]

theorem complete_historyOf (i : Nat) (h0 : 0 < i) (hi : i < (historyOf logs).length) :
    ∃ txn, TxnAt (historyOf logs) i txn := by
  rw [length_historyOf] at hi
  have hlt : i - 1 < (sessionsOf logs).flatten.length := by omega
  refine ⟨(sessionsOf logs).flatten[i - 1], ?_⟩
  rw [txnAt_historyOf, flatten_numberAll, mem_numberFrom]
  exact ⟨h0, List.getElem?_eq_getElem hlt⟩

theorem mem_of_txnAt {i : Nat} {txn : List (Mop κ Value)} (h : TxnAt (historyOf logs) i txn) :
    txn ∈ (sessionsOf logs).flatten := by
  rw [txnAt_historyOf, flatten_numberAll, mem_numberFrom] at h
  exact List.mem_of_getElem? h.2

theorem consecutive_historiesOf {i j : Nat} : Consecutive (historiesOf logs) i j ↔
    ∃ l ∈ numberAll 1 (sessionsOf logs), ∃ p ∈ l.zip l.tail, p.1.1 = i ∧ p.2.1 = j := by
  constructor
  · intro h
    obtain ⟨txns, ht, p, hp, hi, hj⟩ := h
    obtain ⟨l, hl, rfl⟩ := List.mem_map.mp ht
    rw [← List.map_tail, List.zip_map] at hp
    obtain ⟨q, hq, rfl⟩ := List.mem_map.mp hp
    exact ⟨l, hl, q, hq, hi, hj⟩
  · intro h
    obtain ⟨l, hl, q, hq, hi, hj⟩ := h
    refine ⟨l.map entryOf, List.mem_map_of_mem hl, (entryOf q.1, entryOf q.2), ?_, hi, hj⟩
    rw [← List.map_tail, List.zip_map]
    exact List.mem_map_of_mem hq

theorem sessions_historiesOf : SessionsOf (historyOf logs) (historiesOf logs) := by
  intro txns ht
  obtain ⟨l, hl, rfl⟩ := List.mem_map.mp ht
  constructor
  · rw [List.map_map]
    exact nodup_of_mem_numberAll hl
  · intro e he
    obtain ⟨p, hp, rfl⟩ := List.mem_map.mp he
    have htxn : TxnAt (historyOf logs) p.1 p.2 :=
      txnAt_historyOf.mpr (List.mem_flatten.mpr ⟨l, hl, hp⟩)
    exact ⟨htxn.1, htxn.lt⟩

/-- The state the initial transaction leaves. -/
def initialValues [DecidableEq κ] (logs : List (Log κ)) : Option (Dict κ Value) :=
  (initialOf logs).map fun writes => writes.foldl (fun d p => d.set p.1 p.2) Dict.empty

theorem initialState_historyOf [LinearOrder κ] :
    initialState (historyOf logs) = .ok (initialValues logs) := by
  have hwrites : ∀ (writes : List (κ × Value)) (d : Dict κ Value),
      (initialMops writes).foldlM initialWrite d =
      .ok (writes.foldl (fun d p => d.set p.1 p.2) d) := by
    intro writes
    induction writes with
    | nil => exact fun _ => rfl
    | cons p writes ih => exact fun d => ih (d.set p.1 p.2)
  simp only [initialState, historyOf, List.head?_cons, initialValues]
  cases initialOf logs with
  | none => rfl
  | some writes => simp only [Option.map_some, hwrites, ok_bind]

/-- At most one log holds an initial transaction. -/
def OneInitialLog (logs : List (Log κ)) : Prop := (logs.filterMap Log.initial?).length ≤ 1

theorem initialOf_perm (h : logs.Perm logs') (hone : OneInitialLog logs) :
    initialOf logs' = initialOf logs := by
  have hperm := h.filterMap Log.initial?
  have hsame : logs.filterMap Log.initial? = logs'.filterMap Log.initial? := by
    cases hl : logs.filterMap Log.initial? with
    | nil =>
      rw [hl] at hperm
      exact hperm.nil_eq
    | cons writes rest =>
      have hrest : rest = [] := by
        rw [OneInitialLog, hl, List.length_cons] at hone
        exact List.length_eq_zero_iff.mp (by omega)
      rw [hl, hrest] at hperm
      rw [hrest, List.singleton_perm.mp hperm]
  rw [initialOf, initialOf, hsame]

/-- Listing the logs in another order only changes the numbers of the transactions. -/
theorem exists_renumbers (h : logs.Perm logs') :
    ∃ π, Renumbers π (historyOf logs) (historyOf logs') (historiesOf logs) (historiesOf logs') := by
  have hsessions : (sessionsOf logs).Perm (sessionsOf logs') := h.filterMap Log.session?
  obtain ⟨π, hfix, hπ⟩ := exists_renumbering hsessions 1
  have hmem : ∀ i txn, (π i, txn) ∈ (numberAll 1 (sessionsOf logs')).flatten ↔
      (i, txn) ∈ (numberAll 1 (sessionsOf logs)).flatten := by
    intro i txn
    have hflat : ((numberAll 1 (sessionsOf logs)).map (renumber π)).flatten =
        renumber π (numberAll 1 (sessionsOf logs)).flatten := by
      rw [renumber, List.map_flatten]
    have hrenumbered := hπ.flatten.mem_iff (a := (π i, txn))
    rw [hflat, mem_renumber] at hrenumbered
    exact hrenumbered.symm
  have hlength : (historyOf logs').length = (historyOf logs).length := by
    rw [length_historyOf, length_historyOf, hsessions.flatten.length_eq]
  have htxn : ∀ i txn, TxnAt (historyOf logs') (π i) txn ↔ TxnAt (historyOf logs) i txn := by
    intro i txn
    rw [txnAt_historyOf, txnAt_historyOf, hmem]
  refine ⟨π, ⟨hfix 0 Nat.one_pos, ?_, htxn, ?_⟩⟩
  · intro i
    constructor
    · intro hi
      by_cases h0 : π i = 0
      · rw [π.injective (h0.trans (hfix 0 Nat.one_pos).symm), ← hlength]
        omega
      · obtain ⟨txn, ht⟩ := complete_historyOf (π i) (Nat.pos_of_ne_zero h0) hi
        exact ((htxn i txn).mp ht).lt
    · intro hi
      cases i with
      | zero =>
        rw [hfix 0 Nat.one_pos, hlength]
        exact hi
      | succ i =>
        obtain ⟨txn, ht⟩ := complete_historyOf (i + 1) (Nat.succ_pos i) hi
        exact ((htxn (i + 1) txn).mpr ht).lt
  · intro i j
    rw [consecutive_historiesOf, consecutive_historiesOf]
    constructor
    · intro hc
      obtain ⟨l, hl, hp⟩ := hc
      obtain ⟨l, hl', rfl⟩ := List.mem_map.mp (hπ.mem_iff.mpr hl)
      exact ⟨l, hl', (neighbours_renumber π).mp hp⟩
    · intro hc
      obtain ⟨l, hl, hp⟩ := hc
      exact ⟨renumber π l, hπ.mem_iff.mp (List.mem_map_of_mem hl), (neighbours_renumber π).mpr hp⟩

end Facts

section Registers

variable {κ : Type} [LinearOrder κ]

instance : (mop : Mop κ Value) → Decidable mop.Bounded
  | .r _ _ _ => .isTrue trivial
  | .w _ _ _ => .isTrue trivial
  | .i _ _ _ _ succ => inferInstanceAs (Decidable (succ = true))
  | .d _ _ _ _ succ => inferInstanceAs (Decidable (succ = true))
  | .range k1 k2 rs dead _ => inferInstanceAs
      (Decidable (∀ item ∈ rs ++ dead, inBetween item.id k1 k2 = true))
  | .append _ _ => .isFalse id

/-- Register logs: reads, writes and two-sided range queries that return records
within their bounds, and no version written twice. -/
structure RegisterLogs (logs : List (Log κ)) : Prop where
  logged : ∀ txn ∈ (sessionsOf logs).flatten, ∀ mop ∈ txn, mop.Logged
  bounded : ∀ txn ∈ (sessionsOf logs).flatten, ∀ mop ∈ txn, mop.Bounded
  unique : UniqueWrites (historyOf logs)

/-- `check_INT` passes the logs. -/
def InternallyConsistent (logs : List (Log κ)) : Prop :=
  ∀ txn ∈ (sessionsOf logs).flatten, checkINT txn = .ok true

variable {logs logs' : List (Log κ)}

theorem RegisterLogs.loggedHistory (h : RegisterLogs logs) (hc : InternallyConsistent logs) :
    LoggedHistory (historyOf logs) where
  initial := by
    refine ⟨_, rfl, ?_⟩
    intro ops hops
    obtain ⟨writes, _, rfl⟩ := Option.map_eq_some_iff.mp hops
    exact initialMops_writes writes
  complete := complete_historyOf
  logged i txn ht := h.logged txn (mem_of_txnAt ht)
  internal i txn ht := hc txn (mem_of_txnAt ht)
  unique := h.unique

theorem checkINT_or_rejects {txn : List (Mop κ Value)} (hl : ∀ mop ∈ txn, mop.Logged)
    (hb : ∀ mop ∈ txn, mop.Bounded) :
    checkINT txn = .ok true ∨ Rejects (checkINT txn) := by
  apply checkINT_cases _ hb
  intro mop hm
  have hlogged := hl mop hm
  have hbounded := hb mop hm
  cases mop with
  | range => exact fun item hi => assertBounds_of_inBetween hlogged.1 hlogged.2.1 (hbounded item hi)
  | r | w | append => trivial
  | i | d => exact hlogged.elim

/-- The parser passes consistent logs and rejects the others. -/
theorem RegisterLogs.checkAll_cases (h : RegisterLogs logs) :
    (InternallyConsistent logs ∧ checkAll (sessionsOf logs).flatten = .ok ()) ∨
      (¬ InternallyConsistent logs ∧ Rejects (checkAll (sessionsOf logs).flatten)) := by
  by_cases hc : InternallyConsistent logs
  · exact .inl ⟨hc, checkAll_eq_ok.mpr hc⟩
  · have hcases : ∀ txns : List (List (Mop κ Value)),
        (∀ txn ∈ txns, checkINT txn = .ok true ∨ Rejects (checkINT txn)) →
        checkAll txns = .ok () ∨ Rejects (checkAll txns) := by
      intro txns
      induction txns with
      | nil => exact fun _ => .inl rfl
      | cons txn txns ih =>
        intro htxns
        cases htxns txn List.mem_cons_self with
        | inl hok =>
          rw [checkAll, hok]
          exact ih fun txn' hm => htxns txn' (List.mem_cons_of_mem txn hm)
        | inr hr =>
          obtain ⟨msg, hmsg⟩ := hr
          exact .inr ⟨msg, by rw [checkAll, hmsg]; rfl⟩
    cases hcases _ fun txn hm => checkINT_or_rejects (h.logged txn hm) (h.bounded txn hm) with
    | inl hok => exact absurd (checkAll_eq_ok.mp hok) hc
    | inr hr => exact .inr ⟨hc, hr⟩

theorem RegisterLogs.perm (h : RegisterLogs logs) (hperm : logs.Perm logs') :
    RegisterLogs logs' where
  logged txn hm := h.logged txn ((hperm.filterMap Log.session?).flatten.mem_iff.mpr hm)
  bounded txn hm := h.bounded txn ((hperm.filterMap Log.session?).flatten.mem_iff.mpr hm)
  unique := by
    obtain ⟨π, hπ⟩ := exists_renumbers hperm
    exact hπ.uniqueWrites h.unique

theorem internallyConsistent_perm (hperm : logs.Perm logs') :
    InternallyConsistent logs' ↔ InternallyConsistent logs := by
  constructor
  · exact fun h txn hm => h txn ((hperm.filterMap Log.session?).flatten.mem_iff.mp hm)
  · exact fun h txn hm => h txn ((hperm.filterMap Log.session?).flatten.mem_iff.mpr hm)

end Registers

end Parse

open Parse

section Verdicts

variable {κ : Type} [LinearOrder κ] [ToString κ]

/-- The loop of both builders over the sessions, on ids that may be missing. -/
def addSessionIds (logs : List (List (JsonTxn κ))) (strongSession : Bool)
    (fullHistory : List (Entry (Mop κ Value))) (histories : List (List (Entry (Mop κ Value)))) :
    Except Err (ArgumentedPolyGraph κ) :=
  optionally strongSession
    (readIds (fun G src dst => G.addEdge src dst .cb) (sessionIds logs))
    ((ArgumentedPolyGraph.init fullHistory.length).setSessionOrder histories)

/-- `construct_graph_from_log` of the plain builder, on decoded JSON logs. -/
def AdyaSI.constructGraphFromLogs (o : SetOrder) (logs : List (List (JsonTxn κ)))
    (strongSession hasFinal : Bool) : Except Err (ArgumentedPolyGraph κ) := do
  let (fullHistory, histories) ← readLogsJson logs
  let _ ← addSessionIds logs strongSession fullHistory histories
  constructGraphFromLog o fullHistory histories strongSession hasFinal

/-- `construct_graph_from_log` of the chain builder, on decoded JSON logs. -/
def AdyaSIChain.constructGraphFromLogs (o : SetOrder) (logs : List (List (JsonTxn κ)))
    (strongSession hasFinal : Bool) : Except Err (ArgumentedPolyGraph κ × List Constraint) := do
  let (fullHistory, histories) ← readLogsJson logs
  let _ ← addSessionIds logs strongSession fullHistory histories
  constructEncoding o fullHistory histories strongSession hasFinal

/-- `my_topo_sort` reads the ids of neighbours before it sorts. -/
def readSortedIds {α : Type} (logs : List (List (JsonTxn κ))) (a : α) : Except Err α :=
  readIds (fun a _ _ => .ok a) (sessionIds logs) a

/-- Algorithm 4, from the logs on. -/
def algo4Json (o : SetOrder) (monosat : GraphSat.Oracle) (logs : List (List (JsonTxn κ)))
    (strongSession hasFinal : Bool) : Except Err Bool :=
  mainAlgo0124 o (AdyaSI.constructGraphFromLogs o logs strongSession hasFinal)
    (fun n edges edgePairs extWrites =>
      .ok (monosat.solve (MonoBCPolyGraphChecker.check n edges edgePairs extWrites)))
    4 false

/-- Algorithm 6, from the logs on. -/
def algo6Json (fuel : Nat) (o : SetOrder) (monosat : GraphSat.Oracle)
    (logs : List (List (JsonTxn κ))) (strongSession hasFinal : Bool) : Option (Except Err Bool) :=
  mainAlgo6812 fuel o
    (AdyaSIChain.constructGraphFromLogs o logs strongSession hasFinal >>= readSortedIds logs)
    (verdictOf o monosat)

section Named

variable {logs : List (Log κ)} {o : SetOrder} {strongSession hasFinal : Bool}

omit [ToString κ] in
theorem readSortedIds_eq {α : Type} (h : checkAll (sessionsOf logs).flatten = .ok ()) (a : α) :
    readSortedIds (logs.map Log.json) a = .ok a := by
  have hloop : ∀ (histories : List (List (Entry (Mop κ Value)))) (a : α),
      histories.foldlM (fun a txns => (txns.zip txns.tail).foldlM (fun a _ => .ok a) a) a =
        (.ok a : Except Err α) := by
    intro histories
    have hinner : ∀ (l : List (Entry (Mop κ Value) × Entry (Mop κ Value))) (a : α),
        l.foldlM (fun a _ => .ok a) a = (.ok a : Except Err α) := by
      intro l
      induction l with
      | nil => exact fun _ => rfl
      | cons p l ih => exact ih
    induction histories with
    | nil => exact fun _ => rfl
    | cons txns histories ih =>
      intro a
      rw [List.foldlM_cons, hinner, ok_bind, ih]
  rw [readSortedIds, sessionIds_eq logs h, readIds_named, hloop]

omit [ToString κ] in
theorem addSessionIds_eq (h : checkAll (sessionsOf logs).flatten = .ok ())
    (fullHistory : List (Entry (Mop κ Value))) :
    addSessionIds (logs.map Log.json) strongSession fullHistory (historiesOf logs) =
      optionally strongSession (addSessionOrder · (historiesOf logs))
        ((ArgumentedPolyGraph.init fullHistory.length).setSessionOrder (historiesOf logs)) := by
  rw [addSessionIds, sessionIds_eq logs h]
  simp only [optionally, readIds_named]
  rfl

theorem AdyaSI.constructGraphFromLogs_eq (logs : List (Log κ)) :
    constructGraphFromLogs o (logs.map Log.json) strongSession hasFinal =
      (checkAll (sessionsOf logs).flatten >>= fun _ =>
        constructGraphFromLog o (historyOf logs) (historiesOf logs) strongSession hasFinal) := by
  rw [constructGraphFromLogs, readLogsJson_eq]
  cases hc : checkAll (sessionsOf logs).flatten with
  | error e => rfl
  | ok _ =>
    simp only [ok_bind, addSessionIds_eq hc]
    rw [constructGraphFromLog]
    cases optionally strongSession (addSessionOrder · (historiesOf logs))
        ((ArgumentedPolyGraph.init (historyOf logs).length).setSessionOrder (historiesOf logs)) <;>
        rfl

theorem AdyaSIChain.constructGraphFromLogs_eq (logs : List (Log κ)) :
    constructGraphFromLogs o (logs.map Log.json) strongSession hasFinal =
      (checkAll (sessionsOf logs).flatten >>= fun _ =>
        constructEncoding o (historyOf logs) (historiesOf logs) strongSession hasFinal) := by
  rw [constructGraphFromLogs, readLogsJson_eq]
  cases hc : checkAll (sessionsOf logs).flatten with
  | error e => rfl
  | ok _ =>
    simp only [ok_bind, addSessionIds_eq hc]
    rw [constructEncoding, createKnowngraph]
    cases optionally strongSession (addSessionOrder · (historiesOf logs))
        ((ArgumentedPolyGraph.init (historyOf logs).length).setSessionOrder (historiesOf logs)) <;>
        rfl

/-- The sort finds the ids it reads. -/
theorem AdyaSIChain.constructGraphFromLogs_sorted (logs : List (Log κ)) :
    (constructGraphFromLogs o (logs.map Log.json) strongSession hasFinal >>=
        readSortedIds (logs.map Log.json)) =
      constructGraphFromLogs o (logs.map Log.json) strongSession hasFinal := by
  rw [constructGraphFromLogs_eq]
  cases hc : checkAll (sessionsOf logs).flatten with
  | error e => rfl
  | ok _ =>
    rw [ok_bind]
    cases constructEncoding o (historyOf logs) (historiesOf logs) strongSession hasFinal with
    | error e => rfl
    | ok p => rw [ok_bind, readSortedIds_eq hc]

theorem AdyaSI.constructGraphFromLogs_sorted (logs : List (Log κ)) :
    (constructGraphFromLogs o (logs.map Log.json) strongSession hasFinal >>=
        readSortedIds (logs.map Log.json)) =
      constructGraphFromLogs o (logs.map Log.json) strongSession hasFinal := by
  rw [constructGraphFromLogs_eq]
  cases hc : checkAll (sessionsOf logs).flatten with
  | error e => rfl
  | ok _ =>
    rw [ok_bind]
    cases constructGraphFromLog o (historyOf logs) (historiesOf logs) strongSession hasFinal with
    | error e => rfl
    | ok G => rw [ok_bind, readSortedIds_eq hc]

end Named

variable {logs logs' : List (Log κ)} {o : SetOrder} {monosat : GraphSat.Oracle}
  {strongSession hasFinal : Bool}

/-- A rejection by the parser is a verdict. -/
theorem algo4Json_cases (h : RegisterLogs logs) (o : SetOrder) (monosat : GraphSat.Oracle)
    (strongSession hasFinal : Bool) :
    (InternallyConsistent logs ∧ algo4Json o monosat (logs.map Log.json) strongSession hasFinal =
      algo4 o monosat (historyOf logs) (historiesOf logs) strongSession hasFinal) ∨
    (¬ InternallyConsistent logs ∧ algo4Json o monosat (logs.map Log.json) strongSession hasFinal =
      .ok false) := by
  cases h.checkAll_cases with
  | inl hok => exact .inl ⟨hok.1, by rw [algo4Json, AdyaSI.constructGraphFromLogs_eq, hok.2]; rfl⟩
  | inr hr =>
    obtain ⟨hno, msg, hmsg⟩ := hr
    exact .inr ⟨hno, by rw [algo4Json, AdyaSI.constructGraphFromLogs_eq, hmsg]; rfl⟩

theorem algo6Json_cases (h : RegisterLogs logs) (o : SetOrder) (monosat : GraphSat.Oracle)
    (strongSession hasFinal : Bool) :
    (InternallyConsistent logs ∧ ∀ fuel,
      algo6Json fuel o monosat (logs.map Log.json) strongSession hasFinal =
      algo6 fuel o monosat (historyOf logs) (historiesOf logs) strongSession hasFinal) ∨
    (¬ InternallyConsistent logs ∧ ∀ fuel,
      algo6Json fuel o monosat (logs.map Log.json) strongSession hasFinal = some (.ok false)) := by
  cases h.checkAll_cases with
  | inl hok =>
    exact .inl ⟨hok.1, fun fuel => by
      rw [algo6Json, AdyaSIChain.constructGraphFromLogs_sorted,
        AdyaSIChain.constructGraphFromLogs_eq, hok.2]
      rfl⟩
  | inr hr =>
    obtain ⟨hno, msg, hmsg⟩ := hr
    exact .inr ⟨hno, fun fuel => by
      rw [algo6Json, AdyaSIChain.constructGraphFromLogs_sorted,
        AdyaSIChain.constructGraphFromLogs_eq, hmsg]
      rfl⟩

/-- What register logs have to satisfy to be accepted. -/
def LogsAccounted (logs : List (Log κ)) (strongSession : Bool) (limit : Nat × Nat → Nat) : Prop :=
  InternallyConsistent logs ∧ Accounted (historyOf logs) (historiesOf logs) strongSession
    (initialValues logs) limit

/-- Algorithm 4 answers on register logs, and accepts those that it can account for. -/
theorem algo4Json_iff (o : SetOrder) (monosat : GraphSat.Oracle) (logs : List (Log κ))
    (strongSession : Bool)
    (h : RegisterLogs logs) :
    ∃ b, algo4Json o monosat (logs.map Log.json) strongSession false = .ok b ∧
      (b = true ↔ LogsAccounted logs strongSession Prod.snd) := by
  cases algo4Json_cases h o monosat strongSession false with
  | inr hr => exact ⟨false, hr.2, ⟨nofun, fun ha => absurd ha.1 hr.1⟩⟩
  | inl hok =>
    obtain ⟨hcons, hsame⟩ := hok
    obtain ⟨t, hc⟩ := (h.loggedHistory hcons).checked sessions_historiesOf strongSession o
    have hinitial : t.initial = initialValues logs :=
      Except.ok.inj (hc.plain.tables.initial.symm.trans initialState_historyOf)
    obtain ⟨b, hb, hiff⟩ := hc.plain.verdict monosat
    rw [LogsAccounted, ← hinitial, and_iff_right hcons]
    exact ⟨b, hsame.trans hb, hiff.trans accounted_iff.symm⟩

theorem algo6Json_iff (o : SetOrder) (monosat : GraphSat.Oracle) (logs : List (Log κ))
    (strongSession : Bool) (h : RegisterLogs logs) : ∃ enough, ∃ b, (∀ fuel, enough ≤ fuel →
      algo6Json fuel o monosat (logs.map Log.json) strongSession false = some (.ok b)) ∧
      (b = true ↔ LogsAccounted logs strongSession Prod.fst) := by
  cases algo6Json_cases h o monosat strongSession false with
  | inr hr => exact ⟨0, false, fun fuel _ => hr.2 fuel, ⟨nofun, fun ha => absurd ha.1 hr.1⟩⟩
  | inl hok =>
    obtain ⟨hcons, hsame⟩ := hok
    have hlogged := h.loggedHistory hcons
    obtain ⟨t, hc⟩ := hlogged.checked sessions_historiesOf strongSession o
    have hinitial : t.initial = initialValues logs :=
      Except.ok.inj (hc.plain.tables.initial.symm.trans initialState_historyOf)
    obtain ⟨enough, hfive⟩ := algo6_eq_algo5 o monosat strongSession false hlogged.parsed
      fun txns ht e he => ((sessions_historiesOf txns ht).2 e he).2
    obtain ⟨b, hb, hiff⟩ := hc.verdict monosat
    rw [LogsAccounted, ← hinitial, and_iff_right hcons]
    refine ⟨enough, b, ?_, hiff.trans accounted_iff.symm⟩
    intro fuel hf
    rw [hsame fuel, hfive fuel hf, hb]

omit [ToString κ] in
/-- Another listing asks the same, if the limits of own upserts agree where they matter. -/
theorem logsAccounted_perm {limit : Nat × Nat → Nat} (hperm : logs.Perm logs')
    (hone : OneInitialLog logs)
    (hlimit : ∀ q q' m k p, Omits (historyOf logs) q m k → UpsertAt (historyOf logs) q p k →
      (p ≤ limit (q', m) ↔ p ≤ limit (q, m))) :
    LogsAccounted logs' strongSession limit ↔ LogsAccounted logs strongSession limit := by
  obtain ⟨π, hπ⟩ := exists_renumbers hperm
  have hinitial : initialValues logs' = initialValues logs := by
    rw [initialValues, initialValues, initialOf_perm hperm hone]
  rw [LogsAccounted, LogsAccounted, internallyConsistent_perm hperm, hinitial]
  apply and_congr_right
  intro _
  apply hπ.accounted_iff
  intro q m k p
  exact hlimit q (π q) m k p

/-- Algorithm 4 answers on register logs in whatever order they are listed. It
always gives the same answer, and accepts those logs that it can account for. -/
theorem algo4Json_listing (o o' : SetOrder) (monosat : GraphSat.Oracle) (logs logs' : List (Log κ))
    (strongSession : Bool)
    (h : RegisterLogs logs) (hone : OneInitialLog logs) (hperm : logs.Perm logs') :
    ∃ b, algo4Json o monosat (logs.map Log.json) strongSession false = .ok b ∧
      algo4Json o' monosat (logs'.map Log.json) strongSession false = .ok b ∧
      (b = true ↔ LogsAccounted logs strongSession Prod.snd) := by
  obtain ⟨b, hb, hiff⟩ := algo4Json_iff o monosat logs strongSession h
  obtain ⟨b', hb', hiff'⟩ := algo4Json_iff o' monosat logs' strongSession (h.perm hperm)
  have hsame : LogsAccounted logs' strongSession Prod.snd ↔
    LogsAccounted logs strongSession Prod.snd :=
    logsAccounted_perm hperm hone fun _ _ _ _ _ _ _ => Iff.rfl
  have he : b' = b := Bool.eq_iff_iff.mpr (hiff'.trans (hsame.trans hiff.symm))
  exact ⟨b, hb, he ▸ hb', hiff⟩

section Example

/-- A writer, the initial transaction, and a session that reads both versions and scans. -/
def listedLogs : List (Log Nat) :=
  [.session [[.w 1 (.int 5) true]], .initial [(1, .int 0)],
    .session [[.r 1 (.int 0) false],
      [.r 1 (.int 5) false, .range (some 0) (some 3) [⟨1, .int 5⟩] [] none]]]

theorem registers_listedLogs : RegisterLogs listedLogs where
  logged := by decide
  bounded := by decide
  unique := uniqueWrites_iff.mpr (by decide)

theorem algo4Json_listing_reversed : RegisterLogs listedLogs ∧ OneInitialLog listedLogs ∧
    listedLogs.Perm listedLogs.reverse ∧
    ∃ b, algo4Json .stored .exact (listedLogs.map Log.json) true false = .ok b ∧
      algo4Json .stored .exact (listedLogs.reverse.map Log.json) true false = .ok b ∧
      (b = true ↔ LogsAccounted listedLogs true Prod.snd) :=
  have hone : OneInitialLog listedLogs := Nat.le_refl 1
  have hperm : listedLogs.Perm listedLogs.reverse := (List.reverse_perm listedLogs).symm
  ⟨registers_listedLogs, hone, hperm,
    algo4Json_listing .stored .stored .exact listedLogs listedLogs.reverse true
      registers_listedLogs hone hperm⟩

end Example

/-- So does algorithm 6, if no query leaves out a key that its own transaction upserts. -/
theorem algo6Json_listing (o o' : SetOrder) (monosat : GraphSat.Oracle) (logs logs' : List (Log κ))
    (strongSession : Bool)
    (h : RegisterLogs logs) (hone : OneInitialLog logs) (hperm : logs.Perm logs')
    (hown : ∀ q m k p, Omits (historyOf logs) q m k → ¬ UpsertAt (historyOf logs) q p k) :
    ∃ enough, ∃ b, (∀ fuel, enough ≤ fuel →
      algo6Json fuel o monosat (logs.map Log.json) strongSession false = some (.ok b) ∧
        algo6Json fuel o' monosat (logs'.map Log.json) strongSession false = some (.ok b)) ∧
      (b = true ↔ LogsAccounted logs strongSession Prod.fst) := by
  obtain ⟨enough, b, hb, hiff⟩ := algo6Json_iff o monosat logs strongSession h
  obtain ⟨enough', b', hb', hiff'⟩ := algo6Json_iff o' monosat logs' strongSession (h.perm hperm)
  have hsame : LogsAccounted logs' strongSession Prod.fst ↔
    LogsAccounted logs strongSession Prod.fst :=
    logsAccounted_perm hperm hone fun q _ m k p hom hu => absurd hu (hown q m k p hom)
  have he : b' = b := Bool.eq_iff_iff.mpr (hiff'.trans (hsame.trans hiff.symm))
  refine ⟨max enough enough', b, ?_, hiff⟩
  intro fuel hf
  exact ⟨hb fuel (le_of_max_le_left hf), he ▸ hb' fuel (le_of_max_le_right hf)⟩

/-- The transaction that queries upserts nothing. -/
theorem not_upsertAt_listedLogs (q m k p : Nat) (hom : Omits (historyOf listedLogs) q m k) :
    ¬ UpsertAt (historyOf listedLogs) q p k := by
  intro hu
  obtain ⟨_, _, _, _, ⟨txn, _, ht, hq⟩, _⟩ := hom
  obtain ⟨txn', _, _, ht', hw⟩ := hu
  obtain rfl := ht.unique ht'
  have hmem : txn ∈ [[.w 1 (.int 5) true], [.r 1 (.int 0) false],
      [.r 1 (.int 5) false, .range (some 0) (some 3) [⟨1, .int 5⟩] [] none]] := mem_of_txnAt ht
  have hq := List.mem_of_getElem? hq
  have hw := List.mem_of_getElem? hw
  simp only [List.mem_cons, List.not_mem_nil, or_false] at hmem
  cases hmem with
  | inl he =>
    subst he
    simp at hq
  | inr hmem =>
    cases hmem with
    | inl he =>
      subst he
      simp at hq
    | inr he =>
      subst he
      simp at hw

theorem algo6Json_listing_reversed : RegisterLogs listedLogs ∧ OneInitialLog listedLogs ∧
    listedLogs.Perm listedLogs.reverse ∧
    (∀ q m k p, Omits (historyOf listedLogs) q m k → ¬ UpsertAt (historyOf listedLogs) q p k) ∧
    ∃ enough, ∃ b, (∀ fuel, enough ≤ fuel →
      algo6Json fuel .stored .exact (listedLogs.map Log.json) true false = some (.ok b) ∧
        algo6Json fuel .stored .exact (listedLogs.reverse.map Log.json) true false = some (.ok b)) ∧
      (b = true ↔ LogsAccounted listedLogs true Prod.fst) := by
  have hone : OneInitialLog listedLogs := Nat.le_refl 1
  have hperm : listedLogs.Perm listedLogs.reverse := (List.reverse_perm listedLogs).symm
  exact ⟨registers_listedLogs, hone, hperm, not_upsertAt_listedLogs,
    algo6Json_listing .stored .stored .exact listedLogs
    listedLogs.reverse true registers_listedLogs hone hperm not_upsertAt_listedLogs⟩

end Verdicts

end Viper
