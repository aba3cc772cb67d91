import Viper.Parse

/-!
# One history in two log formats

A history of plain micro-operations is written as EDN lines and as JSON logs.
Both parsers recover it under the same ids. Only the JSON parser checks the
internal consistency of the transactions it reads.
-/
namespace Viper

open Py

namespace Parse

variable {κ : Type}

section Writing

/-- A bound of a range; the formats spell a missing one differently. -/
def boundField (nil : Field κ) : Option κ → Field κ
  | none => nil
  | some k => .key k

/-- The fields of a micro-operation, as both formats list them. -/
def writeMop (nil : Field κ) : Mop κ Value → RawMop κ
  | .r k v isDead => ⟨.r, [.key k, .val v, .flag isDead]⟩
  | .w k v succ => ⟨.w, [.key k, .val v, .flag succ]⟩
  | .i k v readV isDead succ => ⟨.i, [.key k, .val v, .val readV, .flag isDead, .flag succ]⟩
  | .d k v readV isDead succ => ⟨.d, [.key k, .val v, .val readV, .flag isDead, .flag succ]⟩
  | .range k1 k2 rs dead final =>
    ⟨.range, [boundField nil k1, boundField nil k2, .records rs, .records dead] ++
      final.toList.map .flag⟩
  | .append k v => ⟨.append, [.key k, .val v]⟩

def ednTxn (txn : List (Mop κ Value)) : EdnTxn κ := ⟨"ok", "txn", txn.map (writeMop .null)⟩

def jsonTxn (txn : List (Mop κ Value)) : JsonTxn κ := ⟨txn.map (writeMop (.val (.str "nil"))), none⟩

/-- The micro-operations that both parsers take. A null that is read is not one of
them: in EDN it stands for the text 'nil'. -/
def Plain : Mop κ Value → Prop
  | .r _ v _ => v ≠ .none
  | .w _ _ _ => True
  | .d _ _ readV _ _ => readV ≠ .none
  | .range _ _ _ _ _ => True
  | _ => False

/-- The EDN parser takes two record lists of a range and nothing behind them. -/
def dropFinal : Mop κ Value → Mop κ Value
  | .range k1 k2 rs dead _ => .range k1 k2 rs dead none
  | mop => mop

end Writing

section Reading

theorem readMop_writeMop (mop : Mop κ Value) : readMop (writeMop .null mop) = .ok mop := by
  cases mop with
  | range k1 k2 rs dead final =>
    cases k1 <;> cases k2 <;> cases final <;> rfl
  | r | w | i | d | append => rfl

theorem convertReadv_val {v : Value} (h : v ≠ .none) :
    convertReadv (.val v : Field κ) = .val v := by
  cases v with
  | int | str => rfl
  | none => exact absurd rfl h

theorem parseMopEdn_writeMop {mop : Mop κ Value} (h : Plain mop) :
    parseMopEdn (writeMop .null mop) = .ok (some (writeMop .null (dropFinal mop))) := by
  cases mop with
  | range k1 k2 rs dead final =>
    cases final <;> simp [parseMopEdn, writeMop, RawMop.at', Field.toRecords, dropFinal]
  | r k v isDead =>
    simp [parseMopEdn, writeMop, RawMop.at', dropFinal, convertReadv_val (κ := κ) h]
  | d k v readV isDead succ =>
    simp [parseMopEdn, writeMop, RawMop.at', RawMop.len, dropFinal, convertReadv_val (κ := κ) h]
  | w => rfl
  | i | append => exact h.elim

theorem boundsOfJson_writeMop (mop : Mop κ Value) :
    boundsOfJson (writeMop (.val (.str "nil")) mop) = .ok (writeMop .null mop) := by
  cases mop with
  | range k1 k2 rs dead final =>
    cases k1 <;> cases k2 <;> rfl
  | r | w | i | d | append => rfl

/-- A transaction as the EDN parser leaves it. -/
def ednParsed (txnId : Nat) (txn : List (Mop κ Value)) : ParsedTxn κ :=
  ⟨some txnId, some ((txn.map dropFinal).map (writeMop .null)), none⟩

/-- A transaction as the JSON parser leaves it. -/
def jsonParsed (txnId : Nat) (txn : List (Mop κ Value)) : ParsedTxn κ :=
  ⟨some txnId, some (txn.map (writeMop .null)), none⟩

theorem read_map_writeMop (txnId : Option Nat) (txn : List (Mop κ Value))
    (isInitial : Option Bool) :
    ParsedTxn.read ⟨txnId, some (txn.map (writeMop .null)), isInitial⟩ = .ok txn := by
  have hread : (txn.map (writeMop .null)).mapM readMop = .ok (txn.map id) := by
    rw [List.mapM_map]
    exact mapM_eq_map (fun mop _ => readMop_writeMop mop)
  rw [List.map_id] at hread
  exact hread

end Reading

section Edn

/-- Transactions under consecutive ids. -/
def parsedFrom (parsed : Nat → List (Mop κ Value) → ParsedTxn κ) (txnId : Nat)
    (txns : List (List (Mop κ Value))) :
    List (ParsedTxn κ) := (txns.zipIdx txnId).map (fun p => parsed p.2 p.1)

theorem parsedFrom_append (parsed : Nat → List (Mop κ Value) → ParsedTxn κ) (n : Nat)
    (txns txns' : List (List (Mop κ Value))) :
    parsedFrom parsed n (txns ++ txns') = parsedFrom parsed n txns ++
      parsedFrom parsed (n + txns.length) txns' := by
  rw [parsedFrom, List.zipIdx_append, List.map_append]
  rfl

theorem length_parsedFrom (parsed : Nat → List (Mop κ Value) → ParsedTxn κ) (n : Nat)
    (txns : List (List (Mop κ Value))) :
    (parsedFrom parsed n txns).length = txns.length := by
  rw [parsedFrom, List.length_map, List.length_zipIdx]

theorem foldlM_addMopEdn {mops : List (Mop κ Value)} (h : ∀ mop ∈ mops, Plain mop)
    (value : List (RawMop κ)) :
    (mops.map (writeMop .null)).foldlM addMopEdn value =
      .ok (value ++ (mops.map dropFinal).map (writeMop .null)) := by
  induction mops generalizing value with
  | nil => simp [pure, Except.pure]
  | cons mop mops ih =>
    have hstep : addMopEdn value (writeMop .null mop) =
        .ok (value ++ [writeMop .null (dropFinal mop)]) := by
      rw [addMopEdn, parseMopEdn_writeMop (h mop List.mem_cons_self)]
      rfl
    rw [List.map_cons, List.foldlM_cons, hstep, ok_bind,
      ih (fun mop' hm => h mop' (List.mem_cons_of_mem mop hm))]
    simp

theorem constructSingleTxnEdn_eq {txn : List (Mop κ Value)} (h : ∀ mop ∈ txn, Plain mop) (n : Nat) :
    constructSingleTxnEdn (ednTxn txn) n = .ok (ednParsed n txn) := by
  simp only [constructSingleTxnEdn, ednTxn, require, and_self, decide_true, if_true, ok_bind,
    foldlM_addMopEdn h]
  rfl

/-- The lines of a log, whose ids continue those of the history. -/
theorem foldlM_ednLine {txns : List (List (Mop κ Value))} (h : ∀ txn ∈ txns, ∀ mop ∈ txn, Plain mop)
    {st : ParseState κ} (hst : st.txnId = st.fullHistory.length) (log : List (ParsedTxn κ)) :
    (txns.map ednTxn).foldlM (ednLine constructSingleTxnEdn) (st, log) =
      .ok (⟨st.fullHistory ++ parsedFrom ednParsed st.txnId txns, st.sessions,
        st.txnId + txns.length⟩, log ++ parsedFrom ednParsed st.txnId txns) := by
  induction txns generalizing st log with
  | nil => simp [parsedFrom, pure, Except.pure]
  | cons txn txns ih =>
    have hstep : ednLine constructSingleTxnEdn (st, log) (ednTxn txn) =
        .ok (⟨st.fullHistory ++ [ednParsed st.txnId txn], st.sessions, st.txnId + 1⟩,
          log ++ [ednParsed st.txnId txn]) := by
      simp only [ednLine, constructSingleTxnEdn_eq (h txn List.mem_cons_self), require, hst,
        decide_true, if_true, ok_bind]
    rw [List.map_cons, List.foldlM_cons, hstep, ok_bind,
      ih (fun txn' hm => h txn' (List.mem_cons_of_mem txn hm)) (by simp [hst])]
    simp only [parsedFrom, List.zipIdx_cons, List.map_cons, List.append_assoc,
      List.singleton_append, List.length_cons]
    rw [Nat.add_right_comm, Nat.add_assoc]

theorem constructAllTxnsEdn_eq {sessions : List (List (List (Mop κ Value)))}
    (h : ∀ txns ∈ sessions, ∀ txn ∈ txns, ∀ mop ∈ txn, Plain mop) :
    ∃ histories, constructAllTxnsEdn (sessions.map (·.map ednTxn)) constructSingleTxnEdn =
      .ok (T0 :: parsedFrom ednParsed 1 sessions.flatten, histories) := by
  have hloop : ∀ (logs : List (List (List (Mop κ Value)))) (st : ParseState κ),
      (∀ txns ∈ logs, ∀ txn ∈ txns, ∀ mop ∈ txn, Plain mop) → st.txnId = st.fullHistory.length →
      ∃ histories, (logs.map (·.map ednTxn)).foldlM (ednLog constructSingleTxnEdn) st =
        .ok ⟨st.fullHistory ++ parsedFrom ednParsed st.txnId logs.flatten, histories,
          st.txnId + logs.flatten.length⟩ := by
    intro logs
    induction logs with
    | nil => exact fun st _ _ => ⟨st.sessions, by simp [parsedFrom, pure, Except.pure]⟩
    | cons txns logs ih =>
      intro st hm hst
      have hstep := foldlM_ednLine (hm txns List.mem_cons_self) hst []
      obtain ⟨histories, hrun⟩ := ih ⟨st.fullHistory ++ parsedFrom ednParsed st.txnId txns,
        st.sessions ++ [[] ++ parsedFrom ednParsed st.txnId txns], st.txnId + txns.length⟩
        (fun txns' hm' => hm txns' (List.mem_cons_of_mem txns hm'))
          (by simp [hst, length_parsedFrom])
      refine ⟨histories, ?_⟩
      rw [List.map_cons, List.foldlM_cons, ednLog, hstep, ok_bind, ok_bind]
      refine hrun.trans ?_
      rw [List.flatten_cons, parsedFrom_append, List.append_assoc, List.length_append,
        Nat.add_assoc]
  obtain ⟨histories, hrun⟩ := hloop sessions ParseState.start h rfl
  exact ⟨histories, by rw [constructAllTxnsEdn, hrun]; rfl⟩

end Edn

section Json

variable [LinearOrder κ]

/-- `check_INT` on one transaction after the other. -/
def checkAll : List (List (Mop κ Value)) → Except Err Unit
  | [] => .ok ()
  | txn :: txns => do
    let _ ← checkINT txn
    checkAll txns

theorem checkAll_append (txns txns' : List (List (Mop κ Value))) :
    checkAll (txns ++ txns') = (checkAll txns >>= fun _ => checkAll txns') := by
  induction txns with
  | nil => rfl
  | cons txn txns ih =>
    rw [List.cons_append, checkAll, checkAll, ih]
    cases checkINT txn <;> rfl

theorem checkAll_eq_foldlM (txns : List (List (Mop κ Value))) :
    checkAll txns = txns.foldlM (fun _ txn => checkINT txn >>= fun _ => .ok ()) () := by
  induction txns with
  | nil => rfl
  | cons txn txns ih =>
    rw [checkAll, List.foldlM_cons, ih]
    cases checkINT txn <;> rfl

theorem checkAll_eq_ok {txns : List (List (Mop κ Value))} :
    checkAll txns = .ok () ↔ ∀ t ∈ txns, checkINT t = .ok true := by
  induction txns with
  | nil => simp [checkAll]
  | cons txn txns ih =>
    rw [checkAll, bind_eq_ok, ih, List.forall_mem_cons]
    constructor
    · rintro ⟨b, hb, htxns⟩
      obtain rfl := checkINT_eq_true hb
      exact ⟨hb, htxns⟩
    · rintro ⟨htxn, htxns⟩
      exact ⟨true, htxn, htxns⟩

/-- The checks reject at the first transaction that they do not pass, if that rejects. -/
theorem rejects_checkAll {txns : List (List (Mop κ Value))} : Rejects (checkAll txns) ↔
    ∃ before txn after, txns = before ++ txn :: after ∧ (∀ t ∈ before, checkINT t = .ok true) ∧
    Rejects (checkINT txn) := by
  have hstep : ∀ {txn : List (Mop κ Value)} {e},
      (checkINT txn >>= fun _ => .ok ()) = (.error e : Except Err Unit) ↔
      checkINT txn = .error e := by
    intro txn e
    cases checkINT txn <;> simp [bind, Except.bind]
  constructor
  · rintro ⟨msg, h⟩
    rw [checkAll_eq_foldlM, foldlM_error_iff] at h
    obtain ⟨before, txn, after, _, rfl, hbefore, htxn⟩ := h
    rw [← checkAll_eq_foldlM] at hbefore
    exact ⟨before, txn, after, rfl, checkAll_eq_ok.mp hbefore, msg, hstep.mp htxn⟩
  · rintro ⟨before, txn, after, rfl, hbefore, msg, htxn⟩
    have hok := checkAll_eq_ok.mpr hbefore
    rw [checkAll_eq_foldlM] at hok
    exact ⟨msg, (checkAll_eq_foldlM _).trans
      (foldlM_error_iff.mpr ⟨before, txn, after, (), rfl, hok, hstep.mpr htxn⟩)⟩

theorem parseTxnJson_eq (txn : List (Mop κ Value)) (n : Nat) :
    parseTxnJson (jsonTxn txn) n = (checkINT txn >>= fun _ => .ok (jsonParsed n txn, n + 1)) := by
  have hbounds : (txn.map (writeMop (.val (.str "nil")))).mapM boundsOfJson =
      .ok (txn.map (writeMop .null)) := by
    rw [List.mapM_map]
    exact mapM_eq_map (fun mop _ => boundsOfJson_writeMop mop)
  have hread : (txn.map (writeMop .null)).mapM readMop = .ok txn := read_map_writeMop none txn none
  have hid : identifyTxn (jsonTxn txn) n =
    .ok ⟨some n, some (txn.map (writeMop (.val (.str "nil")))), none⟩ := rfl
  simp only [parseTxnJson, hid, ok_bind, Option.getD_some, hbounds, hread]
  cases hc : checkINT txn with
  | error e => rfl
  | ok b =>
    have hb := checkINT_eq_true hc
    subst hb
    rfl

/-- A log: its transactions are checked, and take the next ids. -/
theorem constructSingleTxnJson_eq (txns : List (List (Mop κ Value))) (n : Nat) :
    constructSingleTxnJson (txns.map jsonTxn) n =
      (checkAll txns >>= fun _ => .ok (parsedFrom jsonParsed n txns, n + txns.length)) := by
  have hloop : ∀ (txns : List (List (Mop κ Value))) (ps : List (ParsedTxn κ)) (n : Nat),
      (txns.map jsonTxn).foldlM jsonTxnStep (ps, n) =
          (checkAll txns >>=
            fun _ => .ok (ps ++ parsedFrom jsonParsed n txns, n + txns.length)) := by
    intro txns
    induction txns with
    | nil => intro ps n; simp [parsedFrom, checkAll, pure, Except.pure]
    | cons txn txns ih =>
      intro ps n
      rw [List.map_cons, List.foldlM_cons, jsonTxnStep, parseTxnJson_eq, checkAll]
      cases checkINT txn with
      | error e => rfl
      | ok b =>
        simp only [ok_bind]
        rw [ih]
        simp only [parsedFrom, List.zipIdx_cons, List.map_cons, List.append_assoc,
          List.singleton_append, List.length_cons]
        rw [Nat.add_right_comm, Nat.add_assoc]
  exact hloop txns [] n

omit [LinearOrder κ] in
theorem isInitialHistory_parsedFrom (n : Nat) (txns : List (List (Mop κ Value))) :
    isInitialHistory (parsedFrom jsonParsed n txns) = false := by
  match txns with
  | [] => rfl
  | [_] => rfl
  | _ :: _ :: _ => rfl

theorem constructAllTxnsJson_eq (sessions : List (List (List (Mop κ Value)))) :
    ∃ histories, constructAllTxnsJson (sessions.map (·.map jsonTxn)) constructSingleTxnJson =
      (checkAll sessions.flatten >>= fun _ =>
        .ok (T0 :: parsedFrom jsonParsed 1 sessions.flatten, histories)) := by
  have hloop : ∀ (logs : List (List (List (Mop κ Value)))) (st : ParseState κ),
      ∃ histories, (logs.map (·.map jsonTxn)).foldlM (jsonLog constructSingleTxnJson) st =
        (checkAll logs.flatten >>= fun _ =>
          .ok ⟨st.fullHistory ++ parsedFrom jsonParsed st.txnId logs.flatten, histories,
          st.txnId + logs.flatten.length⟩) := by
    intro logs
    induction logs with
    | nil => exact fun st => ⟨st.sessions, by simp [parsedFrom, checkAll, pure, Except.pure]⟩
    | cons txns logs ih =>
      intro st
      obtain ⟨histories, hrun⟩ := ih ⟨st.fullHistory ++ parsedFrom jsonParsed st.txnId txns,
        st.sessions ++ [parsedFrom jsonParsed st.txnId txns], st.txnId + txns.length⟩
      refine ⟨histories, ?_⟩
      rw [List.map_cons, List.foldlM_cons, jsonLog, constructSingleTxnJson_eq, List.flatten_cons,
        checkAll_append]
      cases checkAll txns with
      | error e => rfl
      | ok _ =>
        simp only [ok_bind, isInitialHistory_parsedFrom, Bool.false_eq_true, if_false]
        rw [hrun, parsedFrom_append, List.append_assoc, List.length_append, Nat.add_assoc]
  obtain ⟨histories, hrun⟩ := hloop sessions ParseState.start
  refine ⟨histories, ?_⟩
  rw [constructAllTxnsJson, hrun]
  cases checkAll sessions.flatten <;> rfl

end Json

section Agreement

variable [LinearOrder κ]

theorem extReadsFn_map_dropFinal (txn : List (Mop κ Value)) :
    extReadsFn (txn.map dropFinal) = extReadsFn txn := by
  have hstep : ∀ (st : ReadState κ Value) (mop : Mop κ Value),
      extReadsStep st (dropFinal mop) = extReadsStep st mop := by
    intro st mop
    cases mop <;> rfl
  rw [extReadsFn, extReadsFn, List.foldlM_map]
  simp only [hstep]

theorem extWritesFn_map_dropFinal (txn : List (Mop κ Value)) :
    extWritesFn (txn.map dropFinal) = extWritesFn txn := by
  have hstep : ∀ (m : Dict κ Value) (mop : Mop κ Value),
      extWritesStep m (dropFinal mop) = extWritesStep m mop := by
    intro m mop
    cases mop <;> rfl
  rw [extWritesFn, extWritesFn, List.foldlM_map]
  simp only [hstep]

/-- Two histories with the same ids, external reads and external writes. -/
def SameHistory (full full' : List (ParsedTxn κ)) : Prop :=
  full.length = full'.length ∧ ∀ (i : Nat) (p p' : ParsedTxn κ), full[i]? = some p →
    full'[i]? = some p' →
    p.id = p'.id ∧ (p.read >>= extReadsFn) = (p'.read >>= extReadsFn) ∧
    (p.read >>= extWritesFn) = (p'.read >>= extWritesFn)

theorem sameHistory_parsed (txns : List (List (Mop κ Value))) :
    SameHistory (T0 :: parsedFrom ednParsed 1 txns) (T0 :: parsedFrom jsonParsed 1 txns) := by
  refine ⟨by simp only [List.length_cons, length_parsedFrom], fun i p p' hp hp' => ?_⟩
  cases i with
  | zero =>
    cases hp
    cases hp'
    exact ⟨rfl, rfl, rfl⟩
  | succ i =>
    simp only [List.getElem?_cons_succ, parsedFrom, List.getElem?_map, List.getElem?_zipIdx]
      at hp hp'
    cases htxn : txns[i]? with
    | none =>
      rw [htxn] at hp
      cases hp
    | some txn =>
      rw [htxn] at hp hp'
      cases hp
      cases hp'
      have hedn : (ednParsed (1 + i) txn).read = .ok (txn.map dropFinal) := read_map_writeMop _ _ _
      have hjson : (jsonParsed (1 + i) txn).read = .ok txn := read_map_writeMop _ _ _
      simp only [hedn, hjson, ok_bind, extReadsFn_map_dropFinal, extWritesFn_map_dropFinal]
      exact ⟨rfl, trivial, trivial⟩

/-- Some transaction of the sessions violates internal consistency. -/
def Violated (sessions : List (List (List (Mop κ Value)))) : Prop :=
  ∃ txn ∈ sessions.flatten, Rejects (checkINT txn)

/-- Both formats give the same verdict, a rejection for inconsistent transactions and
for no others, and the same history. -/
structure FormatsAgree (sessions : List (List (List (Mop κ Value)))) : Prop where
  verdict : Rejects (constructAllTxnsEdn (sessions.map (·.map ednTxn)) constructSingleTxnEdn) ↔
    Rejects (constructAllTxnsJson (sessions.map (·.map jsonTxn)) constructSingleTxnJson)
  edn : Rejects (constructAllTxnsEdn (sessions.map (·.map ednTxn)) constructSingleTxnEdn) ↔
    Violated sessions
  json : Rejects (constructAllTxnsJson (sessions.map (·.map jsonTxn)) constructSingleTxnJson) ↔
    Violated sessions
  history : ∀ full histories full' histories',
    constructAllTxnsEdn (sessions.map (·.map ednTxn)) constructSingleTxnEdn =
      .ok (full, histories) →
    constructAllTxnsJson (sessions.map (·.map jsonTxn)) constructSingleTxnJson =
      .ok (full', histories') → SameHistory full full'

theorem rejects_constructAllTxnsJson (sessions : List (List (List (Mop κ Value)))) :
    Rejects (constructAllTxnsJson (sessions.map (·.map jsonTxn)) constructSingleTxnJson) ↔
      Rejects (checkAll sessions.flatten) := by
  obtain ⟨histories, hjson⟩ := constructAllTxnsJson_eq sessions
  rw [hjson]
  cases checkAll sessions.flatten with
  | ok _ => exact ⟨fun hr => absurd hr (not_rejects_ok _), fun hr => absurd hr (not_rejects_ok _)⟩
  | error e =>
    constructor
    · intro hr
      obtain ⟨msg, he⟩ := hr
      exact ⟨msg, congrArg _ (Except.error.inj he)⟩
    · intro hr
      obtain ⟨msg, he⟩ := hr
      exact ⟨msg, congrArg _ (Except.error.inj he)⟩

/-- The formats agree exactly on logs without an inconsistent transaction. -/
theorem formats_agree_iff (sessions : List (List (List (Mop κ Value))))
    (h : ∀ txns ∈ sessions, ∀ txn ∈ txns, ∀ mop ∈ txn, Plain mop) :
    FormatsAgree sessions ↔ ∀ txn ∈ sessions.flatten, ¬ Rejects (checkINT txn) := by
  obtain ⟨histories, hedn⟩ := constructAllTxnsEdn_eq h
  obtain ⟨histories', hjson⟩ := constructAllTxnsJson_eq sessions
  have hno :
      ¬ Rejects (constructAllTxnsEdn (sessions.map (·.map ednTxn)) constructSingleTxnEdn) := by
    rw [hedn]
    exact not_rejects_ok _
  constructor
  · intro hagree txn hm hr
    exact hno (hagree.edn.mpr ⟨txn, hm, hr⟩)
  · intro hall
    have hclean : ¬ Violated sessions := by
      intro hv
      obtain ⟨txn, hm, hr⟩ := hv
      exact hall txn hm hr
    have hno' :
        ¬ Rejects (constructAllTxnsJson (sessions.map (·.map jsonTxn)) constructSingleTxnJson) := by
      rw [rejects_constructAllTxnsJson, rejects_checkAll]
      intro hr
      obtain ⟨before, txn, after, he, _, hr⟩ := hr
      exact hall txn (he ▸ List.mem_append_right before List.mem_cons_self) hr
    refine ⟨iff_of_false hno hno', iff_of_false hno hclean, iff_of_false hno' hclean, ?_⟩
    intro full hs full' hs' h₁ h₂
    rw [hedn] at h₁
    cases h₁
    rw [hjson, bind_eq_ok] at h₂
    obtain ⟨_, _, he⟩ := h₂
    cases he
    exact sameHistory_parsed sessions.flatten

/-- A query and a delete, and a transaction that reads what it did not write. -/
def consistentTxn : List (Mop Nat Value) :=
  [.range (some 1) (some 9) [⟨2, .int 5⟩] [] none, .d 2 (.int 7) (.int 5) false true,
    .r 2 (.int 7) false]

theorem formats_agree_iff_consistent :
    (∀ txns ∈ [[consistentTxn]], ∀ txn ∈ txns, ∀ mop ∈ txn, Plain mop) ∧
      (FormatsAgree [[consistentTxn]] ↔
        ∀ txn ∈ [[consistentTxn]].flatten, ¬ Rejects (checkINT txn)) := by
  have h : ∀ txns ∈ [[consistentTxn]], ∀ txn ∈ txns, ∀ mop ∈ txn, Plain mop := by
    simp [consistentTxn, Plain]
  exact ⟨h, formats_agree_iff [[consistentTxn]] h⟩

/-- A transaction that reads another value than it wrote is rejected in one format only. -/
theorem edn_accepts_inconsistent :
    ¬ (Rejects
      (constructAllTxnsEdn [[ednTxn [(.w 1 (.int 5) true : Mop Nat Value), .r 1 (.int 6) false]]]
        constructSingleTxnEdn) ↔
      Rejects
        (constructAllTxnsJson
          [[jsonTxn [(.w 1 (.int 5) true : Mop Nat Value), .r 1 (.int 6) false]]]
        constructSingleTxnJson)) :=
  fun h => not_rejects_ok _ (h.mpr ⟨_, rfl⟩)

end Agreement

end Parse

end Viper
