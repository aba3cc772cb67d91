import Viper.AppendTraversal
import Viper.AppendVerdict
import Viper.AppendIsolation

/-!
# Faulty list-append logs

A log is built, rejected, or crashes the builder. It is rejected exactly when the
first faulty list is; what is left to `combine_writes` never is a verdict.
-/
namespace Viper

open Py Chains Precedence

namespace Append

section Logs

variable {κ ν : Type} [LinearOrder κ] [DecidableEq ν]

/-- Every element read has one appender, nobody reads its own version, and the
successors of a key form rows. -/
structure Buildable (lines : List (LogTxn κ ν)) : Prop where
  sourced : Sourced lines
  foreign : ∀ k j, ¬ ReadsFrom lines k j j
  successor : ∀ k a b b', Successor lines k a b → Successor lines k a b' → b = b'
  predecessor : ∀ k a a' b, Successor lines k a b → Successor lines k a' b → a = a'
  acyclic : ∀ k, Acyclic (Successor lines k)

variable [ToString κ] (o : SetOrder) (lines : List (LogTxn κ ν)) (strongSession : Bool)

theorem constructEncoding_ok_iff :
    (∃ g con, constructEncoding o (parse o lines).1 (parse o lines).2 strongSession =
      .ok (g, con)) ↔
      Buildable lines := by
  constructor
  · rintro ⟨g, con, hok⟩
    obtain ⟨chains, readfrom, he⟩ := encoded_of_ok hok
    refine ⟨he.sourced, fun k j hr => ?_,
      fun k => (he.successors k).1, fun k => (he.successors k).2.1, fun k => (he.successors k).2.2⟩
    exact (he.valid _ (.inl (.read (.read hr)))).1 rfl
  · intro h
    obtain ⟨g, con, _, _, hok, _⟩ :=
      encoding_total o strongSession h.sourced h.foreign h.successor h.predecessor h.acyclic
    exact ⟨g, con, hok⟩

section Merging

variable (chains : ChainTable κ)

omit [LinearOrder κ] [DecidableEq ν] in
theorem not_rejects_removeChain (chainset : List Chain) (chain : Chain) :
    ¬ Rejects (removeChain chainset chain) := by
  rw [removeChain]
  split <;> simp [Rejects]

omit [DecidableEq ν] in
theorem not_rejects_findChain (k : κ) (tx : Nat) (sel : Chain → Nat) :
    ¬ Rejects (findChain o chains k tx sel) := by
  rw [findChain]
  split <;> simp [Rejects]

omit [DecidableEq ν] in
theorem not_rejects_combineStep (p : (κ × Nat) × Nat) :
    ¬ Rejects (combineStep o (fun _ _ => .ok ()) chains p) := by
  refine not_rejects_bind (not_rejects_findChain o chains _ _ _) (fun chain1 => ?_)
  refine not_rejects_bind (not_rejects_findChain o chains _ _ _) (fun chain2 => ?_)
  refine not_rejects_bind (not_rejects_ok ()) (fun _ => ?_)
  refine not_rejects_bind (not_rejects_removeChain _ chain1) (fun rest => ?_)
  refine not_rejects_bind (not_rejects_removeChain rest chain2) (fun rest => ?_)
  exact not_rejects_ok _

omit [DecidableEq ν] [ToString κ] in
theorem not_rejects_inferRwEdges (readfrom : ReadFrom κ) (g : ArgumentedPolyGraph κ) :
    ¬ Rejects (inferRwEdges o chains readfrom g) := by
  refine not_rejects_foldlM (fun g p => ?_) _ g
  refine not_rejects_foldlM (fun g chain => ?_) _ g
  refine not_rejects_foldlM (fun g q => ?_) _ g
  refine not_rejects_foldlM (fun g readTxn => ?_) _ g
  split
  · exact not_rejects_addEdge _ _ _ _
  · exact not_rejects_ok _

omit [DecidableEq ν] in
/-- Merging chains and inferring edges gives no verdicts. -/
theorem not_rejects_genConstraints (st : KnownGraph κ) (X : Index κ (ListValue ν)) :
    ¬ Rejects (genConstraints o st X) := by
  have hcombine : ¬ Rejects (combineWrites o (singleChains o X) st.wwpairs) :=
    not_rejects_foldlM (fun chains p => not_rejects_combineStep o chains p) _ _
  refine not_rejects_bind hcombine (fun chains => ?_)
  exact not_rejects_bind (not_rejects_inferRwEdges o chains st.readfrom st.g)
    (fun _ => not_rejects_ok _)

end Merging

theorem rejects_constructEncoding_iff :
    Rejects (constructEncoding o (parse o lines).1 (parse o lines).2 strongSession) ↔
      FirstRejected lines := by
  obtain ⟨X, hX, hXof⟩ := extWrites_parse o lines
  obtain ⟨R, hR, hRof⟩ := extReads_parse o lines
  obtain ⟨g, hg, hp⟩ := play_spec
    (G := (ArgumentedPolyGraph.init (lines.length + 1) : ArgumentedPolyGraph κ).setSessionOrder
      (parse o lines).2)
    (S := baseScript lines (parse o lines).2 strongSession) (fun x hx => valid_base o hx)
  have hpast : Past (lines.length + 1) [] (⟨g, Dict.empty, Dict.empty⟩ : KnownGraph κ) :=
    ⟨hp.nNodes, fun k a b => by simp⟩
  rw [constructEncoding, createKnowngraph_eq o lines _ strongSession hX hR, hg, ok_bind,
    ← rejectsFirst_iff hXof hR hRof,
    ← rejects_runActs_iff _ hpast (fun k a b hf => by simpa using not_next_of_fresh hXof hR hf)]
  cases hrun : runActs ⟨g, Dict.empty, Dict.empty⟩ (allActs o (parse o lines).1 X R) with
  | error e => simp [Rejects]
  | ok st => exact iff_of_false (not_rejects_genConstraints o st X) (not_rejects_ok st)

/-- The builder returns or gives a verdict exactly when the log is buildable, or
a list it rejects comes before all that crash it. -/
theorem constructEncoding_reports_iff :
    ((∃ g con, constructEncoding o (parse o lines).1 (parse o lines).2 strongSession =
      .ok (g, con)) ∨
        Rejects (constructEncoding o (parse o lines).1 (parse o lines).2 strongSession)) ↔
      Buildable lines ∨ FirstRejected lines := by
  rw [constructEncoding_ok_iff, rejects_constructEncoding_iff]

/-- The builder gives a verdict, or no instantiation is acyclic, exactly when a
list is rejected first, or nothing explains a buildable log. -/
theorem refuses_iff :
    Refuses (constructEncoding o (parse o lines).1 (parse o lines).2 strongSession) id ↔
      FirstRejected lines ∨ (Buildable lines ∧
        ¬ ∃ _ : LinearOrder Event, Explains lines (parse o lines).2 strongSession) := by
  refine or_congr (rejects_constructEncoding_iff o lines strongSession) ?_
  constructor
  · rintro ⟨⟨g, con⟩, hok, hcyclic⟩
    obtain ⟨_, _, he⟩ := encoded_of_ok hok
    refine ⟨(constructEncoding_ok_iff o lines strongSession).mp ⟨g, con, hok⟩, ?_⟩
    rw [← he.acyclic_iff, not_exists]
    exact hcyclic
  · rintro ⟨hb, hno⟩
    obtain ⟨g, con, hok⟩ := (constructEncoding_ok_iff o lines strongSession).mpr hb
    obtain ⟨_, _, he⟩ := encoded_of_ok hok
    rw [← he.acyclic_iff, not_exists] at hno
    exact ⟨(g, con), hok, hno⟩

/-- A list with an element that nobody appended in front of one that somebody did. -/
def strayElement : List (LogTxn Nat Nat) := [⟨1, [.append 1 10]⟩, ⟨2, [.r 1 (some [99, 10])]⟩]

theorem strayElement_crashes : UniqueAppends strayElement ∧
    ¬ ((∃ g con, constructEncoding .stored (parse .stored strayElement).1
      (parse .stored strayElement).2 false =
        .ok (g, con)) ∨
      Rejects (constructEncoding .stored (parse .stored strayElement).1
        (parse .stored strayElement).2 false)) := by
  have hcrash : constructEncoding .stored (parse .stored strayElement).1
      (parse .stored strayElement).2 false =
      .error (.assertion "") := rfl
  refine ⟨fun k => ?_, ?_⟩
  · by_cases hk : 1 = k
    · subst hk
      decide
    · simp [strayElement, appendsTo, hk]
  · rw [hcrash]
    simp [Rejects]

end Logs

end Append

end Viper
