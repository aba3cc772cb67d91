import Viper.AdyaSIChain
import Viper.Lib.Precedence

/-!
# Merging chains (`combine_writes`)

From one chain for every writer, `combine_writes` computes the maximal paths of
the known successors, in whatever order pairs and chains are visited. A cycle
shows up as a chain that would have to follow itself.
-/
namespace Viper

open Py Chains Precedence

namespace AdyaSIChain

section Definitions

variable {κ : Type} [LinearOrder κ]

/-- `b` is the known successor of `a`. -/
def Next (wwpairs : Wwpairs κ) (k : κ) (a b : Nat) : Prop := wwpairs.get? (k, a) = some b

/-- For every key, an injective relation on its writers. -/
structure PairsOf (writers : κ → Finset Nat) (wwpairs : Wwpairs κ) : Prop where
  injective : ∀ k a a' b, Next wwpairs k a b → Next wwpairs k a' b → a = a'
  within : ∀ k a b, Next wwpairs k a b → a ∈ writers k ∧ b ∈ writers k

def Cyclic (wwpairs : Wwpairs κ) : Prop := ∃ k a, Relation.TransGen (Next wwpairs k) a a

/-- The writers of every key, arranged in the maximal paths of known successors. -/
structure MaximalPaths (writers : κ → Finset Nat) (wwpairs : Wwpairs κ)
    (chains : ChainTable κ) : Prop where
  sets : ∀ k, (chains.getD k []).Nodup
  members : ∀ k, ∀ C ∈ chains.getD k [], ∀ a ∈ C.txns, a ∈ writers k
  covered : ∀ k, ∀ a ∈ writers k, ∃ C ∈ chains.getD k [],
    C.txns.count a = 1 ∧ ∀ D ∈ chains.getD k [], a ∈ D.txns → D = C
  follows : ∀ k a b, (∃ C ∈ chains.getD k [], Linked C.txns a b) ↔ Next wwpairs k a b
  maximal : ∀ k a z, Stretch (· ∈ writers k) (Next wwpairs k) a z ↔
    ∃ C ∈ chains.getD k [], C.first = a ∧ C.last = z

/-- What `combine_writes` does with one chain for every writer. -/
structure Combines [ToString κ] (o : SetOrder) (writers : κ → Finset Nat) (wwpairs : Wwpairs κ)
    (chains : ChainTable κ) :
    Prop where
  asserts : ∀ msg, combineWrites o chains wwpairs ≠ .error (.assertion msg)
  rejects : Rejects (combineWrites o chains wwpairs) ↔ Cyclic wwpairs
  merges : ¬ Cyclic wwpairs →
    ∃ merged, combineWrites o chains wwpairs = .ok merged ∧ MaximalPaths writers wwpairs merged

end Definitions

section Merging

variable {κ : Type} [LinearOrder κ] {writers : κ → Finset Nat} {wwpairs : Wwpairs κ}
  {chains : ChainTable κ}

theorem mem_of_iff {k : κ} {P : List Nat → Prop} :
    (∃ C ∈ chains.of k, P C) ↔ ∃ C ∈ chains.getD k [], P C.txns := by
  simp only [ChainTable.of, List.mem_map, exists_exists_and_eq_and]

/-- Chains that follow the pairs of a key, read as sets of tuples. -/
theorem maximalPaths_of_chained (h : ∀ k, Chained (· ∈ writers k) (Next wwpairs k) (chains.of k)) :
    MaximalPaths writers wwpairs chains where
  sets k := List.Nodup.of_map _ (h k).nodup_chains
  members k C hC a ha := ((h k).cover a).mpr (mem_of_iff.mpr ⟨C, hC, ha⟩)
  covered k a ha := by
    obtain ⟨C, hC, hmem⟩ := mem_of_iff.mp (((h k).cover a).mp ha)
    have hin : ∀ {D}, D ∈ chains.getD k [] → D.txns ∈ chains.of k :=
      fun hD => List.mem_map.mpr ⟨_, hD, rfl⟩
    have hnodup : C.txns.Nodup := (List.nodup_flatten.mp (h k).nodup).1 _ (hin hC)
    refine ⟨C, hC, List.count_eq_one_of_mem hnodup hmem, fun D hD hmem' => ?_⟩
    exact Chain.txns_injective ((h k).eq_of_mem (hin hD) (hin hC) hmem' hmem)
  follows k a b := mem_of_iff.symm.trans (h k).linked.symm
  maximal k a z := by
    rw [(h k).stretch_iff, mem_of_iff]
    simp only [Chain.first_eq, Chain.last_eq]

/-- Chains rank their members along the pairs. -/
theorem not_cyclic_of_chained (h : ∀ k, Chained (· ∈ writers k) (Next wwpairs k) (chains.of k)) :
    ¬ Cyclic wwpairs := by
  rintro ⟨k, a, ha⟩
  have hacyclic :=
    acyclic_of_map (fun x => (chains.of k).flatten.idxOf x) (fun _ _ hab => (h k).lt_of_link hab)
  exact hacyclic a ha

variable [ToString κ]

/-- The merging ends with maximal paths, or meets a cycle. -/
theorem combineWrites_cases (o : SetOrder) (hs : Singletons writers chains)
    (hw : PairsOf writers wwpairs) :
    (∃ merged, combineWrites o chains wwpairs = .ok merged ∧
      ∀ k, Chained (· ∈ writers k) (Next wwpairs k) (merged.of k)) ∨
    (combineWrites o chains wwpairs = .error (.reject "cyclic dependency") ∧ Cyclic wwpairs) := by
  have hnext : ∀ {k a b}, ((k, a), b) ∈ wwpairs.entries ↔ Next wwpairs k a b :=
    fun {k a b} => wwpairs.mem_entries (k, a) b
  have hsanity : ∀ chain1 chain2 : Chain, chain1 ≠ chain2 →
      (if chain1 = chain2 then .error (.reject "cyclic dependency") else .ok () : Except Err Unit) =
      .ok () :=
    fun _ _ hne => if_neg hne
  have hrun := combineRun_spec (o := o) (W := fun k a => a ∈ writers k) (d := [])
    (l := wwpairs.entries) hsanity
    (by simpa using wwpairs.nodup)
    (fun k a a' b h h' => hw.injective k a a' b (hnext.mp h) (hnext.mp h'))
    (fun k a b h => hw.within k a b (hnext.mp h))
    (fun k => (hs.chained k).congr (fun _ => Iff.rfl) (fun _ _ => by simp))
  rcases hrun with ⟨merged, hok, hc⟩ | ⟨k, C, hC, hclosed, herr⟩
  · exact .inl ⟨merged, hok, fun k => (hc k).congr (fun _ => Iff.rfl) (fun _ _ => hnext)⟩
  · refine .inr
      ⟨?_, k, C.first, Chain.cycle_of_closed (hC.imp fun _ _ => hnext.mp) (hnext.mp hclosed)⟩
    rw [combineWrites, combineWritesWith, herr, if_pos rfl]
    rfl

/-- For every family of writers and every injective relation on them, in every
order of the pairs and of the chains, the chains end as the maximal paths, unless
the relation has a cycle. -/
theorem combineWrites_correct (o : SetOrder) (writers : κ → Finset Nat) (wwpairs : Wwpairs κ)
    (chains : ChainTable κ)
    (hw : PairsOf writers wwpairs) (hs : Singletons writers chains) :
    Combines o writers wwpairs chains := by
  rcases combineWrites_cases o hs hw with ⟨merged, hok, hc⟩ | ⟨hrej, hcyc⟩
  · have hno := not_cyclic_of_chained hc
    constructor
    · intro msg h
      rw [hok] at h
      cases h
    · refine iff_of_false ?_ hno
      rw [hok]
      exact not_rejects_ok merged
    · exact fun _ => ⟨merged, hok, maximalPaths_of_chained hc⟩
  · constructor
    · intro msg h
      rw [hrej] at h
      cases h
    · exact iff_of_true ⟨_, hrej⟩ hcyc
    · exact fun hno => absurd hcyc hno

section Example

/-- Transactions 1, 2 and 3 write key 1. -/
def threeWrites : Index Nat Nat := ((Dict.empty.set2 1 5 [1]).set2 1 6 [2]).set2 1 7 [3]

/-- Transaction 3 follows 2, and 2 follows 1. -/
def threePairs : Wwpairs Nat := (Dict.empty.set (1, 2) 3).set (1, 1) 2

theorem pairsOf_three : PairsOf (fun k => (kWritesFn threeWrites k).toFinset) threePairs where
  injective k a a' b h h' := by
    have hall : ∀ p ∈ threePairs.entries,
      ∀ q ∈ threePairs.entries, p.1.1 = q.1.1 → p.2 = q.2 → p.1.2 = q.1.2 := by decide
    exact hall _ ((threePairs.mem_entries _ _).mpr h) _
      ((threePairs.mem_entries _ _).mpr h') rfl rfl
  within k a b h := by
    have hall : ∀ p ∈ threePairs.entries, p.1.2 ∈ (kWritesFn threeWrites p.1.1).toFinset ∧
      p.2 ∈ (kWritesFn threeWrites p.1.1).toFinset := by decide
    exact hall _ ((threePairs.mem_entries _ _).mpr h)

theorem combineWrites_correct_three :
    PairsOf (fun k => (kWritesFn threeWrites k).toFinset) threePairs ∧
    Singletons (fun k => (kWritesFn threeWrites k).toFinset) (singleChains .stored threeWrites) ∧
    Combines .stored (fun k => (kWritesFn threeWrites k).toFinset) threePairs
      (singleChains .stored threeWrites) :=
  ⟨pairsOf_three, singletons_singleChains .stored threeWrites,
    combineWrites_correct .stored _ threePairs _ pairsOf_three
      (singletons_singleChains .stored threeWrites)⟩

example : (combineWrites .stored (singleChains .stored threeWrites) threePairs).map (·.of 1) = .ok
    [[1, 2, 3]] := rfl

end Example

end Merging

end AdyaSIChain

end Viper
