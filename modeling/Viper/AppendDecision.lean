import Viper.AppendSessions
import Viper.AppendVerdict
import Viper.RegisterDecision

/-!
# Algorithm 8 from log to verdict

The whole of algorithm 8 on a list-append log: `parse`, the graph builder, the
sorting, and the loop that prunes and calls the checker. It always ends, and what
it accepts can be said of the log without naming a graph, a session table or an
iteration order.
-/
namespace Viper

open Py Chains Versions Precedence Dependencies

namespace Append

variable {κ ν : Type} [LinearOrder κ]

section Orders

/-- Transaction `i` is before `j` in the log of one process. -/
def Precedes (lines : List (LogTxn κ ν)) (i j : Nat) : Prop :=
  i < j ∧ ∃ p, processOf lines i = some p ∧ processOf lines j = some p

/-- Transaction `j` has not seen an append of `w`: it read a list without it that
does not end with `w` either, or it read the version that `w` extends. -/
inductive MissedAppend (lines : List (LogTxn κ ν)) (j w : Nat) : Prop
  | unseen {k xs y} : Reads lines j k xs → Appends lines w k y → y ∉ xs → w ≠ j →
    (∀ z, xs.getLast? = some z → ¬ Appends lines w k z) → MissedAppend lines j w
  | extended {k a} : Successor lines k a w → ReadsFrom lines k a j → j ≠ w → MissedAppend lines j w

variable [LinearOrder Event]

/-- An order of the begin and commit points that agrees with what the log shows. -/
structure Explanation (lines : List (LogTxn κ ν)) (strongSession : Bool) : Prop where
  begins : ∀ i, i ≤ lines.length → Event.s i < Event.c i
  initial : ∀ i, 0 < i → i ≤ lines.length → Event.c 0 < Event.s i
  sessions : strongSession = true → ∀ i j, Precedes lines i j → Event.c i < Event.s j
  reads : ∀ k i j, ReadsFrom lines k i j → Event.c i < Event.s j
  missed : ∀ j w, MissedAppend lines j w → Event.s j < Event.c w
  rows : ∀ k h t h' t', Stretch (Writes lines k) (Successor lines k) h t →
    Stretch (Writes lines k) (Successor lines k) h' t' → h ≠ h' →
    Overwritten lines k t h' ∨ Overwritten lines k t' h

variable {o : SetOrder} {lines : List (LogTxn κ ν)} {strongSession : Bool}

omit [LinearOrder κ] in
/-- Following a session from one transaction to the next covers session order. -/
theorem holds_of_consecutive (hbegin : ∀ i, i ≤ lines.length → Event.s i < Event.c i)
    (hnext : ∀ i j, Consecutive (parse o lines).2 i j → Event.c i < Event.s j) {i j : Nat}
    (h : Precedes lines i j) :
    Event.c i < Event.s j := by
  have hpath := (transGen_consecutive_iff o lines i j).mpr h
  clear h
  induction hpath with
  | single h => exact hnext _ _ h
  | tail _ h ih =>
    obtain ⟨_, p, hp, _⟩ := consecutive_parse o lines h
    exact (ih.trans (hbegin _ (lt_of_process hp).2)).trans (hnext _ _ h)

theorem explains_parse_iff : Explains lines (parse o lines).2 strongSession ↔
    Explanation lines strongSession := by
  constructor
  · intro h
    refine ⟨h.begins, fun i h0 hi => h.known ⟨0, i, .cb⟩ (.initial h0 hi), ?_, ?_, ?_, h.outer⟩
    · intro hs i j hij
      exact holds_of_consecutive h.begins (fun i j hc => h.known ⟨i, j, .cb⟩ (.session hs hc)) hij
    · intro k i j hr
      exact h.known ⟨i, j, .wr⟩ (.read (.read hr))
    · intro j w hm
      cases hm with
      | unseen hr ha hy hne hlast => exact h.known ⟨j, w, .rw⟩ (.read (.missed hr ha hy hne hlast))
      | extended hs hr hne => exact h.inner _ _ _ _ hs hr hne
  · intro h
    refine ⟨h.begins, ?_, fun k a b r hs hr hne => h.missed r b (.extended hs hr hne), h.rows⟩
    intro e he
    cases he with
    | session hs hc => exact h.sessions hs _ _ (consecutive_parse o lines hc)
    | initial h0 hi => exact h.initial _ h0 hi
    | read hr =>
      cases hr with
      | nil hn =>
        obtain ⟨h0, hj⟩ := lt_of_reads hn
        exact h.initial _ h0 hj
      | read hr => exact h.reads _ _ _ hr
      | missed hr ha hy hne hlast => exact h.missed _ _ (.unseen hr ha hy hne hlast)

end Orders

/-- What a log has to satisfy: the elements of its reads have one appender each,
the versions of a key form rows, and some order explains the log. -/
structure Explainable (lines : List (LogTxn κ ν)) (strongSession : Bool) : Prop where
  sourced : Sourced lines
  successor : ∀ k a b b', Successor lines k a b → Successor lines k a b' → b = b'
  predecessor : ∀ k a a' b, Successor lines k a b → Successor lines k a' b → a = a'
  acyclic : ∀ k, Acyclic (Successor lines k)
  explained : ∃ _ : LinearOrder Event, Explanation lines strongSession

theorem acceptable_iff_explainable (o : SetOrder) (lines : List (LogTxn κ ν))
    (strongSession : Bool) :
    Acceptable o lines strongSession ↔ Explainable lines strongSession := by
  constructor
  · intro h
    obtain ⟨hlin, hex⟩ := h.explained
    exact ⟨h.sourced, h.successor, h.predecessor, h.acyclic, hlin, explains_parse_iff.mp hex⟩
  · intro h
    obtain ⟨hlin, hex⟩ := h.explained
    exact ⟨h.sourced, h.successor, h.predecessor, h.acyclic, hlin, explains_parse_iff.mpr hex⟩

section Algorithm

variable [DecidableEq ν] [ToString κ]

/-- Algorithm 8 on a log. -/
def algo8 (fuel : Nat) (o : SetOrder) (monosat : GraphSat.Oracle) (lines : List (LogTxn κ ν))
    (strongSession : Bool) :
    Option (Except Err Bool) :=
  mainAlgo6812 fuel o (constructGraphFromLog o lines strongSession) (verdictOf o monosat)

omit [LinearOrder κ] [DecidableEq ν] [ToString κ] in
theorem sessions_lt (o : SetOrder) (lines : List (LogTxn κ ν)) :
    ∀ txns ∈ (parse o lines).2, ∀ e ∈ txns, e.id < lines.length + 1 := by
  intro txns ht e he
  rw [sessions_eq, List.mem_map] at ht
  obtain ⟨tid, _, rfl⟩ := ht
  obtain ⟨p, hp, rfl⟩ := List.mem_map.mp he
  have hproc := (mem_linesOf lines tid p.2).mp (List.mem_map_of_mem hp)
  exact Nat.lt_succ_of_le (lt_of_process hproc).2

theorem algo8_eq (o : SetOrder) (monosat : GraphSat.Oracle) (lines : List (LogTxn κ ν))
    (strongSession : Bool) :
    ∃ enough, ∀ fuel, enough ≤ fuel → algo8 fuel o monosat lines strongSession =
      some (mainAlgo35 (constructGraphFromLog o lines strongSession) (verdictOf o monosat)) := by
  apply mainAlgo6812_eq_mainAlgo35
  intro g con hok
  exact (EncodingOf.append (sessions_lt o lines) hok).prunable

theorem mainAlgo35_append_iff (o : SetOrder) (monosat : GraphSat.Oracle) (lines : List (LogTxn κ ν))
    (strongSession : Bool) :
    mainAlgo35 (constructGraphFromLog o lines strongSession) (verdictOf o monosat) = .ok true ↔
      Explainable lines strongSession := by
  rw [mainAlgo35_eq_true, ← acceptable_iff_explainable o, ← accepted_iff, accepted_iff_check]
  simp only [monosat.solve_iff, constructGraphFromLog]

/-- Algorithm 8 ends on every log, and it accepts the log if and only if some order
explains it. Sets may be iterated in any order. -/
theorem algo8_iff_explainable (o : SetOrder) (monosat : GraphSat.Oracle) (lines : List (LogTxn κ ν))
    (strongSession : Bool) : ∃ enough,
    ∀ fuel, enough ≤ fuel → ∃ r, algo8 fuel o monosat lines strongSession = some r ∧
      (r = .ok true ↔ Explainable lines strongSession) := by
  obtain ⟨enough, h⟩ := algo8_eq o monosat lines strongSession
  exact ⟨enough, fun fuel hf => ⟨_, h fuel hf, mainAlgo35_append_iff o monosat lines strongSession⟩⟩

end Algorithm

section Anomalies

/-- Transaction `j` has seen `i`, along reads and, if their order counts, along sessions. -/
def Saw (lines : List (LogTxn κ ν)) (strongSession : Bool) : Nat → Nat → Prop :=
  Relation.TransGen fun i j => (∃ k, ReadsFrom lines k i j) ∨
    (strongSession = true ∧ Precedes lines i j)

/-- What no snapshot-isolated store shows. -/
inductive ListAnomaly (lines : List (LogTxn κ ν)) (strongSession : Bool) : Prop
  /-- an element that was read has no appender, or several -/
  | dirtyRead {j k xs x} : Reads lines j k xs → x ∈ xs → (¬ ∃ a, ∀ i, Appends lines i k x ↔ i = a) →
    ListAnomaly lines strongSession
  /-- two transactions extend the same version -/
  | lostUpdate {k a b b'} : Successor lines k a b → Successor lines k a b' → b ≠ b' →
      ListAnomaly lines strongSession
  /-- a cycle of sights in which at most every second step is a miss -/
  | cycle {i} : Relation.TransGen (Hop (Saw lines strongSession) (MissedAppend lines)) i i →
      ListAnomaly lines strongSession

variable {lines : List (LogTxn κ ν)} {strongSession : Bool}

/-- A transaction has seen `i`, but not all that `i` appended. -/
theorem ListAnomaly.fracturedRead {i j : Nat} {k : κ} {xs : List ν} {y : ν}
    (hs : Saw lines strongSession i j)
    (hne : i ≠ j) (hr : Reads lines j k xs) (ha : Appends lines i k y) (hy : y ∉ xs)
    (hlast : ∀ z, xs.getLast? = some z → ¬ Appends lines i k z) : ListAnomaly lines strongSession :=
  .cycle (i := i) (.single ⟨j, hs, .inr (.unseen hr ha hy hne hlast)⟩)

theorem Saw.lt_begin [LinearOrder Event] (h : Explanation lines strongSession) {i j : Nat}
    (hij : Saw lines strongSession i j) : Event.c i < Event.s j ∧ j ≤ lines.length := by
  have hstep : ∀ i j, ((∃ k, ReadsFrom lines k i j) ∨ (strongSession = true ∧ Precedes lines i j)) →
      Event.c i < Event.s j ∧ j ≤ lines.length := by
    intro i j hd
    cases hd with
    | inl hr =>
      obtain ⟨k, hr⟩ := hr
      exact ⟨h.reads k i j hr, hr.lt.2⟩
    | inr hs =>
      obtain ⟨hs, hp⟩ := hs
      obtain ⟨_, p, _, hj⟩ := id hp
      exact ⟨h.sessions hs i j hp, (lt_of_process hj).2⟩
  induction hij with
  | single hd => exact hstep _ _ hd
  | tail _ hd ih =>
    obtain ⟨hlt, hj⟩ := hstep _ _ hd
    exact ⟨ih.1.trans ((h.begins _ ih.2).trans hlt), hj⟩

theorem Explainable.not_anomaly (h : Explainable lines strongSession) :
    ¬ ListAnomaly lines strongSession := by
  intro ha
  cases ha with
  | dirtyRead hr hx hno => exact hno (h.sourced _ _ _ _ hr hx)
  | lostUpdate hb hb' hne => exact hne (h.successor _ _ _ _ hb hb')
  | cycle hc =>
    obtain ⟨_, hex⟩ := h.explained
    refine acyclic_of_map Event.c (fun i j hop => ?_) _ hc
    apply Hop.lt (s := Event.s) ?_ (fun j w hm => hex.missed j w hm) hop
    intro i j hs
    obtain ⟨hlt, hj⟩ := hs.lt_begin hex
    exact ⟨hlt, hex.begins j hj⟩

variable [DecidableEq ν] [ToString κ]

/-- Algorithm 8 never says yes to a log with an anomaly, and ends with another
answer if it has enough fuel. -/
theorem algo8_refuses_anomaly (o : SetOrder) (monosat : GraphSat.Oracle) (lines : List (LogTxn κ ν))
    (strongSession : Bool) (ha : ListAnomaly lines strongSession) :
    (∀ fuel, algo8 fuel o monosat lines strongSession ≠ some (.ok true)) ∧
      ∃ enough, ∀ fuel, enough ≤ fuel →
        ∃ r, algo8 fuel o monosat lines strongSession = some r ∧ r ≠ .ok true := by
  obtain ⟨enough, h⟩ := algo8_eq o monosat lines strongSession
  have hno : mainAlgo35 (constructGraphFromLog o lines strongSession)
    (verdictOf o monosat) ≠ .ok true :=
    fun hr => ((mainAlgo35_append_iff o monosat lines strongSession).mp hr).not_anomaly ha
  refine ⟨fun fuel hyes => hno ?_, enough, fun fuel hf => ⟨_, h fuel hf, hno⟩⟩
  have hmore : algo8 (max fuel enough) o monosat lines strongSession = some (.ok true) :=
    mainAlgo6812_mono (Nat.le_max_left fuel enough) hyes
  rw [h _ (Nat.le_max_right fuel enough)] at hmore
  exact Option.some.inj hmore

/-- A transaction reads one of two keys before and the other after another one appends to both. -/
def fracturedLog : List (LogTxn Nat Nat) :=
  [⟨1, [.append 1 10, .append 2 20]⟩, ⟨2, [.r 1 (some [10]), .r 2 none]⟩]

theorem anomaly_fracturedLog : ListAnomaly fracturedLog false := by
  have hs : Saw fracturedLog false 1 2 := .single (.inl ⟨1, [10], 10, rfl, rfl, List.mem_cons_self⟩)
  have hr : Reads fracturedLog 2 2 [] := rfl
  have ha : Appends fracturedLog 1 2 20 := by simp [Appends, opsOf, fracturedLog]
  exact ListAnomaly.fracturedRead hs (by decide) hr ha (by simp) (by simp)

theorem algo8_refuses_anomaly_fractured : ListAnomaly fracturedLog false ∧
    (∀ fuel, algo8 fuel .stored .exact fracturedLog false ≠ some (.ok true)) ∧
      ∃ enough, ∀ fuel, enough ≤ fuel →
        ∃ r, algo8 fuel .stored .exact fracturedLog false = some r ∧ r ≠ .ok true :=
  ⟨anomaly_fracturedLog,
    algo8_refuses_anomaly .stored .exact fracturedLog false anomaly_fracturedLog⟩

end Anomalies

end Append

end Viper
