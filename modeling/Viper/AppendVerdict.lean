import Viper.AppendEncoding
import Viper.Instantiation

/-!
# What algorithm 8 accepts

The verdict on a list-append log in terms of the log alone. An order explains a
log when sessions and reads hold in it, and the rows of known successors of a
key do not interleave. The order of the elements inside a list only says which
transactions form a row; it is not part of an explanation.
-/
namespace Viper

open Py Chains Versions Precedence

namespace Append

variable {κ ν : Type} [LinearOrder κ]

/-- Version `t` and its readers before version `h`. -/
def Overwritten [LinearOrder Event] (lines : List (LogTxn κ ν)) (k : κ) (t h : Nat) : Prop :=
  Event.c t < Event.s h ∧ ∀ r, ReadsFrom lines k t r → Event.s r < Event.c h

@[mk_iff]
structure Explains [LinearOrder Event] (lines : List (LogTxn κ ν))
    (histories : List (List (Entry (Mop κ (ListValue ν))))) (strongSession : Bool) : Prop where
  begins : ∀ i, i ≤ lines.length → Event.s i < Event.c i
  known : ∀ e, Known lines histories strongSession e → e.Holds
  inner : ∀ k a b r, Successor lines k a b → ReadsFrom lines k a r → r ≠ b → Event.s r < Event.c b
  outer : ∀ k h t h' t', Stretch (Writes lines k) (Successor lines k) h t →
    Stretch (Writes lines k) (Successor lines k) h' t' → h ≠ h' →
    Overwritten lines k t h' ∨ Overwritten lines k t' h

section Chains

variable {lines : List (LogTxn κ ν)} {chains : κ → List (List Nat)}
  (hC : Chaining (workload lines) (Successor lines) chains) [LinearOrder Event]
include hC

omit hC in
theorem before_iff {k : κ} {C D : List Nat} {t h : Nat} (ht : C.getLast? = some t)
    (hh : D.head? = some h) :
    Before (workload lines) Event.s Event.c k C D ↔ Overwritten lines k t h := by
  simp only [Before, ht, hh, Option.some.injEq]
  exact ⟨fun hb => hb t h rfl rfl, fun hb a b ha hb' => by subst ha; subst hb'; exact hb⟩

/-- Legal chains, said with rows of successors. -/
theorem chainLegal_iff_rows : ChainLegal (workload lines) chains Event.s Event.c ↔
    (∀ k i j, ReadsFrom lines k i j → Event.c i < Event.s j) ∧
    (∀ k a b r, Successor lines k a b → ReadsFrom lines k a r → r ≠ b → Event.s r < Event.c b) ∧
    ∀ k h t h' t', Stretch (Writes lines k) (Successor lines k) h t →
      Stretch (Writes lines k) (Successor lines k) h' t' → h ≠ h' →
      Overwritten lines k t h' ∨ Overwritten lines k t' h := by
  constructor
  · intro hL
    refine ⟨fun k i j hr => hL.reads hr,
      fun k a b r hs hr hne => ?_, fun k h t h' t' hs hs' hne => ?_⟩
    · obtain ⟨C, hCm, l₁, l₂, he⟩ := (hC k).linked.mp hs
      exact hL.inner hCm he hr hne
    · obtain ⟨C, hCm, hh, ht⟩ := (hC k).stretch_iff.mp hs
      obtain ⟨D, hDm, hh', ht'⟩ := (hC k).stretch_iff.mp hs'
      have hCD : C ≠ D := fun he => hne (Option.some.inj (hh.symm.trans (he ▸ hh')))
      rw [← before_iff ht hh', ← before_iff ht' hh]
      exact hL.outer hCm hDm hCD
  · rintro ⟨hr, hi, ho⟩
    refine ⟨fun h => hr _ _ _ h, fun {k C l₁ a b l₂ r} hCm he hrd hne => ?_,
      fun {k C D} hCm hDm hne => ?_⟩
    · exact hi k a b r ((hC k).linked.mpr ⟨C, hCm, l₁, l₂, he⟩) hrd hne
    · obtain ⟨t, ht⟩ := hC.exists_last hCm
      obtain ⟨t', ht'⟩ := hC.exists_last hDm
      obtain ⟨h, hh⟩ := hC.exists_head hCm
      obtain ⟨h', hh'⟩ := hC.exists_head hDm
      have hne' : h ≠ h' := by
        rintro rfl
        exact hne ((hC k).eq_of_mem hCm hDm (List.mem_of_head? hh) (List.mem_of_head? hh'))
      rw [before_iff ht hh', before_iff ht' hh]
      exact ho k h t h' t' ((hC k).stretch_iff.mpr ⟨C, hCm, hh, ht⟩)
        ((hC k).stretch_iff.mpr ⟨D, hDm, hh', ht'⟩) hne'

end Chains

section Encoded

variable {o : SetOrder} {lines : List (LogTxn κ ν)}
  {histories : List (List (Entry (Mop κ (ListValue ν))))}
  {strongSession : Bool} {chains : ChainTable κ} {readfrom : ReadFrom κ} {g : ArgumentedPolyGraph κ}
  {con : List Constraint} (h : Encoded o lines histories strongSession chains readfrom g con)
include h

theorem Encoded.explains_iff [LinearOrder Event] :
    Ordered g.nNodes (g.edgeList o) con ↔ Explains lines histories strongSession := by
  rw [h.ordered_iff, chainLegal_iff_rows h.chaining]
  constructor
  · rintro ⟨hb, hk, _, hi, ho⟩
    exact ⟨hb, hk, hi, ho⟩
  · intro he
    exact ⟨he.begins, he.known, fun k i j hr => he.known _ (.read (.read hr)), he.inner, he.outer⟩

theorem Encoded.initial {i : Nat} (h0 : 0 < i) (hi : i < g.nNodes) : g.Before (.c 0) (.s i) := by
  rw [h.nNodes, Nat.lt_succ_iff] at hi
  exact (h.before _ _).mpr ⟨_, rfl, .inl (.initial h0 hi)⟩

theorem Encoded.acyclic_iff : (∃ side, Acyclic (BCEdge g con side)) ↔
    ∃ _ : LinearOrder Event, Explains lines histories strongSession := by
  rw [exists_acyclic_iff h.inv (fun _ h0 hi => h.initial h0 hi) o]
  exact exists_congr fun _ => h.explains_iff

theorem Encoded.reaches_iff {a b : Event} (hne : a ≠ b) :
    (∀ side, Acyclic (BCEdge g con side) → Relation.TransGen (BCEdge g con side) a b) ↔
      ∀ _ : LinearOrder Event, Explains lines histories strongSession → a < b := by
  rw [Viper.reaches_iff h.inv (fun _ h0 hi => h.initial h0 hi) o hne]
  exact forall_congr' fun _ => imp_congr_left h.explains_iff

theorem Encoded.successors (k : κ) :
    (∀ a b b', Successor lines k a b → Successor lines k a b' → b = b') ∧
    (∀ a a' b, Successor lines k a b → Successor lines k a' b → a = a') ∧
    Acyclic (Successor lines k) :=
  ⟨fun _ _ _ hb hb' => (h.chaining k).successor_unique hb hb',
    fun _ _ _ ha ha' => (h.chaining k).predecessor_unique ha ha',
    acyclic_of_map _ (fun _ _ hab => (h.chaining k).lt_of_link hab)⟩

end Encoded

/-- The builder returns and its encoding has an acyclic instantiation. -/
def Accepted [DecidableEq ν] [ToString κ] (o : SetOrder) (lines : List (LogTxn κ ν))
    (strongSession : Bool) : Prop :=
  ∃ g con, constructEncoding o (parse o lines).1 (parse o lines).2 strongSession = .ok (g, con) ∧
    ∃ side, Acyclic (BCEdge g con side)

/-- What the log has to satisfy. -/
@[mk_iff]
structure Acceptable (o : SetOrder) (lines : List (LogTxn κ ν)) (strongSession : Bool) : Prop where
  sourced : Sourced lines
  successor : ∀ k a b b', Successor lines k a b → Successor lines k a b' → b = b'
  predecessor : ∀ k a a' b, Successor lines k a b → Successor lines k a' b → a = a'
  acyclic : ∀ k, Acyclic (Successor lines k)
  explained : ∃ _ : LinearOrder Event, Explains lines (parse o lines).2 strongSession

theorem accepted_iff [DecidableEq ν] [ToString κ] (o : SetOrder) (lines : List (LogTxn κ ν))
    (strongSession : Bool) :
    Accepted o lines strongSession ↔ Acceptable o lines strongSession := by
  constructor
  · rintro ⟨g, con, hok, hs⟩
    obtain ⟨chains, readfrom, he⟩ := encoded_of_ok hok
    exact ⟨he.sourced, fun k => (he.successors k).1,
      fun k => (he.successors k).2.1, fun k => (he.successors k).2.2, he.acyclic_iff.mp hs⟩
  · intro h
    obtain ⟨_, hex⟩ := h.explained
    have hown : ∀ k j, ¬ ReadsFrom lines k j j := fun k j hr =>
      lt_asymm (hex.known _ (.read (.read hr))) (hex.begins j hr.lt.2)
    obtain ⟨g, con, chains, readfrom, hok, he⟩ :=
      encoding_total o strongSession h.sourced hown h.successor h.predecessor h.acyclic
    exact ⟨g, con, hok, he.acyclic_iff.mpr h.explained⟩

/-- The builder returns, and the events can be numbered so that one instantiation
of its encoding goes up. -/
def acceptedAlong [DecidableEq ν] [ToString κ] (rank : Event → Nat) (o : SetOrder)
    (lines : List (LogTxn κ ν)) (strongSession : Bool) : Bool :=
  match constructEncoding o (parse o lines).1 (parse o lines).2 strongSession with
  | .ok (g, con) => ascends rank g con
  | .error _ => false

theorem accepted_of_along [DecidableEq ν] [ToString κ] (rank : Event → Nat) {o : SetOrder}
    {lines : List (LogTxn κ ν)}
    {strongSession : Bool} (h : acceptedAlong rank o lines strongSession = true) :
    Accepted o lines strongSession := by
  rw [acceptedAlong] at h
  split at h
  · rename_i g con hok
    obtain ⟨_, _, he⟩ := encoded_of_ok hok
    exact ⟨g, con, hok, _, acyclic_of_ascends rank he.inv h⟩
  · cases h

/-- The checker of algorithm 8 looks for an acyclic instantiation. -/
theorem accepted_iff_check [DecidableEq ν] [ToString κ] (o : SetOrder) (lines : List (LogTxn κ ν))
    (strongSession : Bool) :
    Accepted o lines strongSession ↔
      ∃ g con, constructEncoding o (parse o lines).1 (parse o lines).2 strongSession =
      .ok (g, con) ∧
        GraphSat.Satisfiable (MonoBCPolyGraphCheckerOptimized.check o g con) := by
  refine exists_congr fun g => exists_congr fun con => and_congr_right fun hok => ?_
  obtain ⟨chains, readfrom, he⟩ := encoded_of_ok hok
  rw [exists_acyclic_iff he.inv (fun _ h0 hi => he.initial h0 hi) o, he.satisfiable_iff]

end Append

end Viper
