import Viper.Parse

/-!
# Ids and positions after parsing

The JSON parser gives an initial transaction the id 0 and does not count it. In
a log of its own it then replaces T0. In a log with other transactions it stays
where it stands, in the history and in its session.
-/
namespace Viper

open Py

namespace Parse

variable {κ : Type} [LinearOrder κ]

/-- The one shape of an initial transaction that gets no id. -/
def JsonTxn.isQuery (txn : JsonTxn κ) : Prop := ∃ fields, txn.value = [⟨.range, fields⟩]

theorem initialTxn_id {txn : JsonTxn κ} {p : ParsedTxn κ} (h : initialTxn txn = .ok p) :
    p.isInitial = txn.isInitial ∧ (p.id = some 0 ↔ ¬ txn.isQuery) := by
  rw [initialTxn] at h
  split at h
  · rename_i fields hv
    rw [bind_eq_ok] at h
    obtain ⟨_, _, he⟩ := h
    cases he
    exact ⟨rfl, nofun, fun hn => absurd ⟨fields, hv⟩ hn⟩
  · rename_i hv
    rw [bind_eq_ok] at h
    obtain ⟨_, _, he⟩ := h
    cases he
    exact ⟨rfl, fun _ hq => by
      obtain ⟨fields, hq⟩ := hq
      exact hv fields hq, fun _ => rfl⟩

/-- What the parser makes of one transaction. -/
theorem parseTxnJson_spec {txn : JsonTxn κ} {n n' : Nat} {p : ParsedTxn κ}
    (h : parseTxnJson txn n = .ok (p, n')) :
    isInitialTxn p = txn.flagged ∧ (txn.flagged = false → p.id = some n ∧ n' = n + 1) ∧
      (txn.flagged = true → (p.id = some 0 ↔ ¬ txn.isQuery) ∧ n' = n) := by
  rw [parseTxnJson, bind_eq_ok] at h
  obtain ⟨q, hq, h⟩ := h
  rw [bind_eq_ok] at h
  obtain ⟨value, _, h⟩ := h
  rw [bind_eq_ok] at h
  obtain ⟨mops, _, h⟩ := h
  rw [bind_eq_ok] at h
  obtain ⟨ok, _, h⟩ := h
  split at h
  · cases h
    by_cases hf : txn.flagged = true
    · rw [identifyTxn, if_pos hf] at hq
      obtain ⟨hinit, hid⟩ := initialTxn_id hq
      refine ⟨by rw [isInitialTxn, hinit, JsonTxn.flagged], fun hn => ?_, fun _ => ⟨hid, if_pos hf⟩⟩
      rw [hf] at hn
      cases hn
    · rw [identifyTxn, if_neg hf] at hq
      cases hq
      exact ⟨rfl, fun _ => ⟨rfl, if_neg hf⟩, fun hn => absurd hn hf⟩
  · cases h

/-- A log without an initial transaction takes the next ids, one each. -/
theorem constructSingleTxnJson_ids {log : List (JsonTxn κ)} {n n' : Nat} {ps : List (ParsedTxn κ)}
    (hlog : ∀ txn ∈ log, txn.flagged = false) (h : constructSingleTxnJson log n = .ok (ps, n')) :
    n' = n + ps.length ∧ ∀ i p, ps[i]? = some p → p.id = some (n + i) ∧ isInitialTxn p = false := by
  refine foldlM_invariant (fun st : List (ParsedTxn κ) × Nat => st.2 = n + st.1.length ∧
      ∀ i p, st.1[i]? = some p → p.id = some (n + i) ∧ isInitialTxn p = false)
    (fun st txn st' hm hst hstep => ?_) ⟨rfl, fun i p hp => by simp at hp⟩ h
  rw [jsonTxnStep, bind_eq_ok] at hstep
  obtain ⟨⟨p, m⟩, hp, he⟩ := hstep
  cases he
  obtain ⟨hflag, hnext, _⟩ := parseTxnJson_spec hp
  obtain ⟨hid, hm'⟩ := hnext (hlog txn hm)
  refine ⟨by rw [hm', hst.1, List.length_append, List.length_singleton]; omega, fun i q hq => ?_⟩
  rw [List.getElem?_append] at hq
  split at hq
  · exact hst.2 i q hq
  · rename_i hi
    obtain ⟨hlt, hq⟩ := List.getElem?_eq_some_iff.mp hq
    rw [List.length_singleton] at hlt
    have hi0 : i = st.1.length := by omega
    subst hi0
    simp only [Nat.sub_self, List.getElem_cons_zero] at hq
    subst hq
    exact ⟨by rw [hid, hst.1], hflag.trans (hlog txn hm)⟩

/-- The result of a log, transaction by transaction. -/
theorem constructSingleTxnJson_mem {log : List (JsonTxn κ)} {n n' : Nat} {ps : List (ParsedTxn κ)}
    (h : constructSingleTxnJson log n = .ok (ps, n')) :
    ps.length = log.length ∧ ∀ txn ∈ log, ∃ p ∈ ps, ∃ m m', parseTxnJson txn m = .ok (p, m') := by
  refine foldlM_prefix (fun done (st : List (ParsedTxn κ) × Nat) => st.1.length = done.length ∧
      ∀ txn ∈ done, ∃ p ∈ st.1, ∃ m m', parseTxnJson txn m = .ok (p, m'))
    (fun done txn rest st st' _ hst hstep => ?_)
      ⟨rfl, fun txn htxn => absurd htxn List.not_mem_nil⟩ h
  rw [jsonTxnStep, bind_eq_ok] at hstep
  obtain ⟨⟨p, m⟩, hp, he⟩ := hstep
  cases he
  refine ⟨by simp [hst.1], fun txn' htxn => ?_⟩
  rcases List.mem_append.mp htxn with hm | hm
  · obtain ⟨q, hq, hparse⟩ := hst.2 txn' hm
    exact ⟨q, List.mem_append_left _ hq, hparse⟩
  · rw [List.mem_singleton.mp hm]
    exact ⟨p, List.mem_append_right _ (List.mem_singleton_self p), _, _, hp⟩

/-- What the graph builders take for granted about parsed logs. -/
structure Positioned (logs : List (List (JsonTxn κ))) (fullHistory : List (ParsedTxn κ))
    (sessions : List (List (ParsedTxn κ))) : Prop where
  ids : ∀ (i : Nat) (p : ParsedTxn κ), fullHistory[i]? = some p → p.id = some i
  initial : ∀ log ∈ logs, ∀ txn ∈ log, txn.flagged = true →
    ∃ p n n', parseTxnJson txn n = .ok (p, n') ∧ fullHistory.head? = some p
  ordinary : ∀ session ∈ sessions, ∀ p ∈ session, isInitialTxn p = false
  rest : sessions.flatten = fullHistory.tail

/-- The initial transaction, if there is one, stands alone in its log and lists its writes. -/
def InitialAlone (logs : List (List (JsonTxn κ))) : Prop :=
  ∀ log ∈ logs, ∀ txn ∈ log, txn.flagged = true → log = [txn] ∧ ¬ txn.isQuery

/-- At most one transaction of all logs is marked as initial. -/
def OneInitial (logs : List (List (JsonTxn κ))) : Prop := logs.flatten.countP JsonTxn.flagged ≤ 1

theorem constructAllTxnsJson_eq_ok {logs : List (List (JsonTxn κ))}
    {fullHistory : List (ParsedTxn κ)} {sessions : List (List (ParsedTxn κ))}
    (h : constructAllTxnsJson logs constructSingleTxnJson = .ok (fullHistory, sessions)) :
    ∃ st, logs.foldlM (jsonLog constructSingleTxnJson) ParseState.start = .ok st ∧
      st.fullHistory = fullHistory ∧ st.sessions = sessions := by
  rw [constructAllTxnsJson, bind_eq_ok] at h
  obtain ⟨st, hst, he⟩ := h
  cases he
  exact ⟨st, hst, rfl, rfl⟩

section Alone

/-- What holds between two logs when no log mixes. -/
structure Positions (done : List (List (JsonTxn κ))) (st : ParseState κ) : Prop extends
    Positioned done st.fullHistory st.sessions where
  ne_nil : st.fullHistory ≠ []
  length : st.fullHistory.length = st.txnId

theorem positions_start : Positions ([] : List (List (JsonTxn κ))) ParseState.start where
  ids i p hp := by
    have hp : [T0][i]? = some p := hp
    rw [List.getElem?_singleton] at hp
    split at hp
    · rename_i hi
      cases hp
      rw [hi]
      rfl
    · cases hp
  initial log hlog := absurd hlog List.not_mem_nil
  ordinary session hs := absurd hs List.not_mem_nil
  rest := rfl
  ne_nil := List.cons_ne_nil _ _
  length := rfl

/-- A log without an initial transaction continues the ids. -/
theorem Positions.append {done : List (List (JsonTxn κ))} {st : ParseState κ}
    {log : List (JsonTxn κ)} {n' : Nat}
    {ps : List (ParsedTxn κ)} (h : Positions done st) (hlog : ∀ txn ∈ log, txn.flagged = false)
    (hps : constructSingleTxnJson log st.txnId = .ok (ps, n')) :
    Positions (done ++ [log]) ⟨st.fullHistory ++ ps, st.sessions ++ [ps], n'⟩ := by
  obtain ⟨hn, hids⟩ := constructSingleTxnJson_ids hlog hps
  refine ⟨⟨fun i p hp => ?_, fun log' hlog' txn htxn hf => ?_, fun session hs p hp => ?_, ?_⟩, ?_,
    ?_⟩
  · rw [List.getElem?_append] at hp
    split at hp
    · exact h.ids i p hp
    · rename_i hi
      rw [(hids _ p hp).1, ← h.length]
      congr 1
      omega
  · rcases List.mem_append.mp hlog' with hm | hm
    · obtain ⟨p, n, m, hp, hhead⟩ := h.initial log' hm txn htxn hf
      refine ⟨p, n, m, hp, ?_⟩
      rw [List.head?_append, hhead]
      rfl
    · rw [List.mem_singleton.mp hm] at htxn
      rw [hlog txn htxn] at hf
      cases hf
  · rcases List.mem_append.mp hs with hs | hs
    · exact h.ordinary session hs p hp
    · rw [List.mem_singleton.mp hs] at hp
      obtain ⟨i, hi⟩ := List.mem_iff_getElem?.mp hp
      exact (hids i p hi).2
  · simp only [List.flatten_append, List.flatten_cons, List.flatten_nil, List.append_nil, h.rest,
      List.tail_append_of_ne_nil h.ne_nil]
  · simp [h.ne_nil]
  · simp only [List.length_append, hn, h.length]

/-- An initial transaction in a log of its own replaces T0. -/
theorem Positions.replace {done : List (List (JsonTxn κ))} {st : ParseState κ}
    {txn : JsonTxn κ} {n' : Nat}
    {p : ParsedTxn κ} (h : Positions done st)
    (hdone : ∀ log ∈ done, ∀ txn ∈ log, txn.flagged = false)
    (hf : txn.flagged = true) (hq : ¬ txn.isQuery) (hp : parseTxnJson txn st.txnId = .ok (p, n')) :
    Positions (done ++ [[txn]]) { st with fullHistory := st.fullHistory.set 0 p, txnId := n' } := by
  obtain ⟨hid, hn⟩ := (parseTxnJson_spec hp).2.2 hf
  have hpos : 0 < st.fullHistory.length := List.length_pos_iff.mpr h.ne_nil
  refine ⟨⟨fun i q hi => ?_, fun log hlog txn' htxn hf' => ?_, h.ordinary, ?_⟩, ?_, ?_⟩
  · rw [List.getElem?_set] at hi
    split at hi
    · rename_i hi0
      cases hi
      rw [← hi0]
      exact hid.mpr hq
    · exact h.ids i q hi
  · rcases List.mem_append.mp hlog with hm | hm
    · rw [hdone log hm txn' htxn] at hf'
      cases hf'
    · rw [List.mem_singleton.mp hm, List.mem_singleton] at htxn
      subst htxn
      refine ⟨p, _, _, hp, ?_⟩
      rw [List.head?_eq_getElem?, List.getElem?_set_self hpos]
  · have htail : (st.fullHistory.set 0 p).tail = st.fullHistory.tail := by
      cases st.fullHistory <;> rfl
    exact h.rest.trans htail.symm
  · intro he
    have hlen := congrArg List.length he
    rw [List.length_set] at hlen
    exact h.ne_nil (List.length_eq_zero_iff.mp hlen)
  · rw [List.length_set, h.length, hn]

theorem positions_of_alone {logs : List (List (JsonTxn κ))} (hone : OneInitial logs)
    (ha : InitialAlone logs)
    {st : ParseState κ}
    (h : logs.foldlM (jsonLog constructSingleTxnJson) ParseState.start = .ok st) :
    Positions logs st := by
  refine foldlM_prefix Positions (fun done log rest st st' hl hst hstep => ?_) positions_start h
  have hmem : log ∈ logs := by
    rw [hl]
    exact List.mem_append_right _ List.mem_cons_self
  rw [jsonLog, bind_eq_ok] at hstep
  obtain ⟨⟨ps, n'⟩, hps, hstep⟩ := hstep
  dsimp only at hstep
  by_cases hlog : ∀ txn ∈ log, txn.flagged = false
  · have hno : isInitialHistory ps = false := by
      cases ps with
      | nil => rfl
      | cons p ps =>
        cases ps with
        | nil => exact ((constructSingleTxnJson_ids hlog hps).2 0 p rfl).2
        | cons _ _ => rfl
    simp only [hno, Bool.false_eq_true, if_false] at hstep
    cases hstep
    exact hst.append hlog hps
  · simp only [not_forall, Bool.not_eq_false] at hlog
    obtain ⟨txn, htxn, hf⟩ := hlog
    obtain ⟨rfl, hq⟩ := ha log hmem txn htxn hf
    -- no other transaction is marked, in particular none before
    have hdone : ∀ log ∈ done, ∀ txn ∈ log, txn.flagged = false := by
      intro log' hlog' txn' htxn'
      by_contra hf'
      rw [Bool.not_eq_false] at hf'
      rw [OneInitial, hl, List.flatten_append, List.flatten_cons, List.countP_append,
        List.countP_append, List.countP_singleton, if_pos hf] at hone
      have hpos := List.countP_pos_iff.mpr ⟨txn', List.mem_flatten.mpr ⟨log', hlog', htxn'⟩, hf'⟩
      omega
    rw [constructSingleTxnJson, List.foldlM_cons, bind_eq_ok] at hps
    obtain ⟨st₁, h₁, hnil⟩ := hps
    rw [jsonTxnStep, bind_eq_ok] at h₁
    obtain ⟨⟨p, m⟩, hp, he⟩ := h₁
    cases he
    cases hnil
    have hyes : isInitialHistory [p] = true := (parseTxnJson_spec hp).1.trans hf
    simp only [List.nil_append, hyes, if_true] at hstep
    cases hstep
    exact hst.replace hdone hf hq hp

end Alone

/-- Every log that is not an initial transaction becomes a session. -/
theorem sessions_of_logs {logs : List (List (JsonTxn κ))} {st st' : ParseState κ}
    (h : logs.foldlM (jsonLog constructSingleTxnJson) st = .ok st') :
    ∀ log ∈ logs, ∃ n n' ps, constructSingleTxnJson log n = .ok (ps, n') ∧
      (isInitialHistory ps = false → ps ∈ st'.sessions) := by
  refine foldlM_prefix (fun done (st : ParseState κ) => ∀ log ∈ done, ∃ n n' ps,
      constructSingleTxnJson log n = .ok (ps, n') ∧
      (isInitialHistory ps = false → ps ∈ st.sessions))
    (fun done log rest st st' _ hst hstep => ?_) (fun log hlog => absurd hlog List.not_mem_nil) h
  rw [jsonLog, bind_eq_ok] at hstep
  obtain ⟨⟨ps, n'⟩, hps, hstep⟩ := hstep
  dsimp only at hstep
  intro log' hlog'
  rcases List.mem_append.mp hlog' with hm | hm
  · obtain ⟨n, m, qs, hqs, hin⟩ := hst log' hm
    refine ⟨n, m, qs, hqs, fun hno => ?_⟩
    split at hstep
    · cases hstep
      exact hin hno
    · cases hstep
      exact List.mem_append_left _ (hin hno)
  · rw [List.mem_singleton.mp hm]
    refine ⟨_, _, ps, hps, fun hno => ?_⟩
    rw [if_neg (by rw [hno]; exact Bool.false_ne_true)] at hstep
    cases hstep
    exact List.mem_append_right _ (List.mem_singleton_self ps)

/-- Ids are positions after parsing exactly if the initial transaction, if there is
one, stands alone in its log and is not written as a range query. -/
theorem positioned_iff {logs : List (List (JsonTxn κ))} (hone : OneInitial logs)
    {fullHistory : List (ParsedTxn κ)} {sessions : List (List (ParsedTxn κ))}
    (h : constructAllTxnsJson logs constructSingleTxnJson = .ok (fullHistory, sessions)) :
    Positioned logs fullHistory sessions ↔ InitialAlone logs := by
  obtain ⟨st, hst, rfl, rfl⟩ := constructAllTxnsJson_eq_ok h
  constructor
  · intro hP log hlog txn htxn hf
    obtain ⟨n, n', ps, hps, hin⟩ := sessions_of_logs hst log hlog
    obtain ⟨hlen, hall⟩ := constructSingleTxnJson_mem hps
    constructor
    · -- otherwise the initial transaction is found in a session
      by_contra hne
      have hno : isInitialHistory ps = false := by
        match ps, hlen with
        | [], _ => rfl
        | [p], hlen =>
          obtain ⟨txn', rfl⟩ := List.length_eq_one_iff.mp hlen.symm
          exact absurd (congrArg (fun x => [x]) (List.mem_singleton.mp htxn).symm) hne
        | _ :: _ :: _, _ => rfl
      obtain ⟨p, hp, m, m', hparse⟩ := hall txn htxn
      have hord := hP.ordinary ps (hin hno) p hp
      rw [(parseTxnJson_spec hparse).1, hf] at hord
      cases hord
    · obtain ⟨p, m, m', hp, hhead⟩ := hP.initial log hlog txn htxn hf
      have hid := hP.ids 0 p (by rw [← List.head?_eq_getElem?, hhead])
      exact (((parseTxnJson_spec hp).2.2 hf).1).mp hid
  · exact fun ha => (positions_of_alone hone ha hst).toPositioned

/-- A write and a read of one key; the write is the initial transaction. -/
def initialWrite0 : JsonTxn Nat := ⟨[⟨.w, [.key 1, .val (.int 0), .flag true]⟩], some true⟩
def read0 : JsonTxn Nat := ⟨[⟨.r, [.key 1, .val (.int 0), .flag false]⟩], none⟩

def aloneLogs : List (List (JsonTxn Nat)) := [[read0], [initialWrite0], [read0]]

theorem positioned_iff_alone :
    OneInitial aloneLogs ∧
      constructAllTxnsJson aloneLogs constructSingleTxnJson =
        .ok ([⟨some 0, some initialWrite0.value, some true⟩, ⟨some 1, some read0.value, none⟩,
          ⟨some 2, some read0.value, none⟩],
          [[⟨some 1, some read0.value, none⟩], [⟨some 2, some read0.value, none⟩]]) ∧
      (Positioned aloneLogs
        [⟨some 0, some initialWrite0.value, some true⟩, ⟨some 1, some read0.value, none⟩,
          ⟨some 2, some read0.value, none⟩]
        [[⟨some 1, some read0.value, none⟩], [⟨some 2, some read0.value, none⟩]] ↔
        InitialAlone aloneLogs) :=
  have hone : OneInitial aloneLogs := Nat.le_refl 1
  have hok : constructAllTxnsJson aloneLogs constructSingleTxnJson = .ok
      ([⟨some 0, some initialWrite0.value, some true⟩, ⟨some 1, some read0.value, none⟩,
        ⟨some 2, some read0.value, none⟩],
        [[⟨some 1, some read0.value, none⟩], [⟨some 2, some read0.value, none⟩]]) := rfl
  ⟨hone, hok, positioned_iff hone hok⟩

/-- In a log with another transaction, the initial one is no. 1 of the history under the id 0. -/
theorem mixedLog_not_positioned :
    OneInitial [[initialWrite0, read0]] ∧ ∃ fullHistory sessions,
      constructAllTxnsJson [[initialWrite0, read0]] constructSingleTxnJson =
      .ok (fullHistory, sessions) ∧
        ¬ Positioned [[initialWrite0, read0]] fullHistory sessions := by
  refine ⟨Nat.le_refl 1, _, _, rfl, fun h => ?_⟩
  exact nomatch h.ids 1 _ rfl

end Parse

end Viper
