import Viper.EdgeWeight
import Viper.ChainAgreement

/-!
# The optimised edge-weight checker

Algorithm 3 builds its constraints in a local graph and then asks an attribute
for the distances, which no method of the class sets. With two transactions or
more the loop over them fails before the solver is called. The time dependencies
of a constraint are in addition those of the last edge of each side only.
-/
namespace Viper

open Py GraphSat

variable {κ : Type} [LinearOrder κ] [ToString κ]

namespace MonoSATEdgeWeightSICheckerOptimized

omit [LinearOrder κ] [ToString κ] in
/-- The loop over the transactions fails as soon as it is entered. -/
theorem check_error (o : SetOrder) (g : ArgumentedPolyGraph κ) (conn : List Constraint)
    (h : 2 ≤ g.nNodes) :
    ∃ e, check o g conn = .error e := by
  have hpair := (mem_pairsOf (List.nodup_range (n := g.nNodes))).mpr
    ⟨List.mem_range.mpr (Nat.lt_of_lt_of_le Nat.zero_lt_two h),
      List.mem_range.mpr (Nat.lt_of_lt_of_le Nat.one_lt_two h), Nat.zero_ne_one⟩
  rw [check]
  generalize (o.iter conn).foldlM assertTimedSets _ = sets
  cases sets with
  | error e => exact ⟨e, rfl⟩
  | ok s =>
    cases hl : pairsOf (List.range g.nNodes) with
    | nil => simp [hl] at hpair
    | cons q l => exact ⟨.attributeError, rfl⟩

omit [LinearOrder κ] [ToString κ] in
/-- Without other transactions and without constraints nothing asks for `self.g`. -/
theorem check_single (o : SetOrder) (g : ArgumentedPolyGraph κ) (h : g.nNodes = 1) :
    check o g [] =
      .ok (MonoSATEdgeWeightSIChecker.check 1 (g.edgeList o) []
        (none : Option (Dict κ (List Nat)))) := by
  rw [check, h, SetOrder.iter_nil]
  rfl

end MonoSATEdgeWeightSICheckerOptimized

/-- A history of the initial transaction alone has no constraints. -/
theorem AdyaSIChain.constraints_single {o : SetOrder} {H : List (Entry (Mop κ Value))}
    {histories : List (List (Entry (Mop κ Value)))} {strongSession hasFinal : Bool}
    {g : ArgumentedPolyGraph κ}
    {con : List Constraint}
    (hok : AdyaSIChain.constructEncoding o H histories strongSession hasFinal = .ok (g, con))
    (hn : H.length ≤ 1) : con = [] := by
  obtain ⟨t, known, chains, ht, hb, hc, hp, rfl⟩ := encoded_of_ok hok
  have hno : ∀ k x, ¬ (workload H).writes k x := by
    rintro k x ⟨v, hv⟩
    have := hv.lt
    omega
  refine List.eq_nil_iff_forall_not_mem.mpr (fun p hp => ?_)
  obtain ⟨e, he⟩ := List.exists_mem_of_ne_nil _ (ne_nil_coalesceAll o chains known.readfrom p hp).1
  exact (forall_coalesceAll o hc (P := fun _ => False) (fun k a _ ha _ => hno k a ha)
    (fun k a _ _ ha _ _ => hno k a ha) p hp).1 e he

/-- Algorithm 3 completes and agrees with algorithm 5 exactly on histories of one
transaction. -/
theorem edgeWeightOptimized_agrees_iff (o : SetOrder) (H : List (Entry (Mop κ Value)))
    (histories : List (List (Entry (Mop κ Value)))) (strongSession hasFinal : Bool)
    (g : ArgumentedPolyGraph κ)
    (con : List Constraint)
    (hok : AdyaSIChain.constructEncoding o H histories strongSession hasFinal = .ok (g, con)) :
    (∃ st, MonoSATEdgeWeightSICheckerOptimized.check o g con = .ok st ∧
        (Satisfiable st ↔ Satisfiable (MonoBCPolyGraphCheckerOptimized.check o g con))) ↔
        H.length ≤ 1 := by
  obtain ⟨t, known, chains, ht, hb, hc, hp, hcon⟩ := AdyaSIChain.encoded_of_ok hok
  have hn : g.nNodes = H.length := hp.nNodes.trans hb.nNodes
  have hg : g.Inv := hp.inv hb.inv
  constructor
  · rintro ⟨st, hst, _⟩
    by_contra hlt
    obtain ⟨e, he⟩ := MonoSATEdgeWeightSICheckerOptimized.check_error o g con (by omega)
    rw [he] at hst
    cases hst
  · intro hle
    have h1 : g.nNodes = 1 := Nat.le_antisymm (hn ▸ hle) (hn ▸ List.length_pos_iff.mpr ht.loaded.1)
    obtain rfl := AdyaSIChain.constraints_single hok hle
    have hpaired : Paired 1 (g.edgeList o) [] := by
      refine ⟨Nat.one_pos, fun e he => ?_,
        fun e he => ?_, fun i h0 hi => by omega, fun p hp => by cases hp⟩
      · exact h1 ▸ hg.src_lt ((g.mem_edgeList o e).mp he).2
      · exact hg.dst_ne ((g.mem_edgeList o e).mp he).2
    refine ⟨_, MonoSATEdgeWeightSICheckerOptimized.check_single o g h1, ?_⟩
    rw [MonoSATEdgeWeightSIChecker.satisfiable_iff_order hpaired,
      MonoBCPolyGraphCheckerOptimized.satisfiable_check_iff o (by omega)
        (fun e he => hg.dst_ne ((g.mem_edgeList o e).mp he).2) (by simp) (by simp)]
    constructor
    · rintro ⟨_, lo, h⟩
      exact ⟨lo, h1 ▸ h.begins, fun i h0 hi => by omega, h.known, by simp⟩
    · rintro ⟨lo, h⟩
      exact ⟨by decide, lo, h1 ▸ h.begins, h.known, by simp⟩

/-- The initial transaction and one that does nothing. -/
def idlePair : List (Entry (Mop Nat Value)) := [⟨0, none⟩, ⟨1, some []⟩]

theorem edgeWeightOptimized_agrees_iff_idle : ∃ g con,
    AdyaSIChain.constructEncoding .stored idlePair [] false false = .ok (g, con) ∧
      ((∃ st, MonoSATEdgeWeightSICheckerOptimized.check .stored g con = .ok st ∧
          (Satisfiable st ↔ Satisfiable (MonoBCPolyGraphCheckerOptimized.check .stored g con))) ↔
        idlePair.length ≤ 1) :=
  ⟨_, _, rfl, edgeWeightOptimized_agrees_iff .stored idlePair [] false false _ _ rfl⟩

/-- Algorithm 3 asks for a missing attribute. -/
theorem edgeWeightOptimized_fails_idle : idlePair.length ≤ 2 ^ (MONO_BV_WIDTH - 1) ∧ ∃ g con,
    AdyaSIChain.constructEncoding .stored idlePair [] false false = .ok (g, con) ∧
      MonoSATEdgeWeightSICheckerOptimized.check .stored g con = .error .attributeError :=
  ⟨by decide, _, _, rfl, rfl⟩

end Viper
