import Viper.Instantiation
import Viper.Reasons
import Viper.SnapshotIsolation

/-!
# Range queries and the initial state

The keys a query is confronted with are collected from the transactions after
entry 0. A query that covers a key of the initial transaction and does not return
it is therefore not ordered before that transaction, which would be impossible. It
helps to refuse the history only when a later upsert of the key is visible to it.
-/
namespace Viper

open Py Precedence

variable {κ : Type} [LinearOrder κ] [ToString κ]

/-- The constraints the plain checker reads off a polygraph. -/
def plainEncoding (o : SetOrder) (G : ArgumentedPolyGraph κ) :
    ArgumentedPolyGraph κ × List Constraint :=
  (G, pairConstraints (o.iter G.edgePairs) (some G.extKey2writes))

section Verdicts

variable {o : SetOrder} {H : List (Entry (Mop κ Value))}
  {histories : List (List (Entry (Mop κ Value)))} {strongSession hasFinal : Bool} {t : Tables κ}

omit [LinearOrder κ] [ToString κ] in
/-- Acceptance of a returned encoding, in terms of orders. -/
theorem refuses_ok_iff {α : Type} {encoding : α → ArgumentedPolyGraph κ × List Constraint} {a : α}
    (hg : (encoding a).1.Inv)
    (hinit : ∀ i, 0 < i → i < (encoding a).1.nNodes → (encoding a).1.Before (.c 0) (.s i)) :
    Refuses (.ok a) encoding ↔
      ¬ ∃ _ : LinearOrder Event, Ordered (encoding a).1.nNodes ((encoding a).1.edgeList o)
        (encoding a).2 := by
  rw [← exists_acyclic_iff hg hinit o, not_exists]
  simp [Refuses]

theorem AdyaSI.Checked.refuses_iff (h : AdyaSI.Checked o H histories strongSession hasFinal t) :
    Refuses (AdyaSI.constructGraphFromLog o H histories strongSession hasFinal) (plainEncoding o) ↔
      (∃ e, KnownStep H histories strongSession t.initial Prod.snd (AdyaSI.finOf o H hasFinal t)
        (.error e)) ∨
        ¬ ∃ _ : LinearOrder Event,
          Explained H (KnownStep H histories strongSession t.initial Prod.snd
            (AdyaSI.finOf o H hasFinal t)) := by
  by_cases hbad : ∃ e, KnownStep H histories strongSession t.initial Prod.snd
    (AdyaSI.finOf o H hasFinal t) (.error e)
  · obtain ⟨e, he⟩ := hbad
    exact iff_of_true (.inl (h.rejected he)) (.inl ⟨e, he⟩)
  · obtain ⟨G, hG, hb⟩ := h.built (not_exists.mp hbad)
    have hinit : ∀ i, 0 < i → i < G.nNodes → G.Before (.c 0) (.s i) := by
      intro i h0 hi
      exact (hb.before _ _).mpr ⟨⟨0, i, .cb⟩, rfl, .first h0 (hb.nNodes ▸ hi)⟩
    rw [hG, or_iff_right hbad, refuses_ok_iff (o := o) hb.inv hinit]
    exact not_congr (exists_congr fun _ => hb.ordered_iff)

theorem AdyaSIChain.Checked.refuses_iff
    (h : AdyaSIChain.Checked o H histories strongSession hasFinal t) :
    Refuses (AdyaSIChain.constructEncoding o H histories strongSession hasFinal) id ↔
      (∃ e, AdyaSIChain.Known o H histories strongSession hasFinal t (.error e)) ∨
        ¬ ∃ _ : LinearOrder Event, Explained H
          (AdyaSIChain.Known o H histories strongSession hasFinal t) := by
  by_cases hbad : (∃ e, AdyaSIChain.Known o H histories strongSession hasFinal t (.error e)) ∨
    AdyaSIChain.Diverging H
  · obtain ⟨msg, hmsg⟩ := h.rejected hbad
    have hrej : AdyaSIChain.constructEncoding o H histories strongSession hasFinal =
        .error (.reject msg) := by
      rw [AdyaSIChain.constructEncoding, hmsg]
      rfl
    refine iff_of_true (.inl ⟨msg, hrej⟩) (hbad.imp_right fun hdiv => ?_)
    rintro ⟨_, hex⟩
    exact AdyaSIChain.not_diverging_of_explained hex hdiv
  · rw [not_or] at hbad
    obtain ⟨known, hknown, hb⟩ := h.built (not_exists.mp hbad.1) hbad.2
    rw [or_iff_right hbad.1]
    rcases hb.genConstraints_cases h.plain.tables with ⟨chains, hc, g, hg, hp⟩ | ⟨k, C, hC, hl, hg⟩
    · have hinit : ∀ i, 0 < i → i < g.nNodes → g.Before (.c 0) (.s i) := by
        intro i h0 hi
        rw [hp.nNodes, hb.nNodes] at hi
        exact (hp.before _ _).mpr (.inl ((hb.before _ _).mpr ⟨⟨0, i, .cb⟩, rfl, .first h0 hi⟩))
      rw [AdyaSIChain.constructEncoding, hknown, ok_bind, hg,
        refuses_ok_iff (o := o) (hp.inv hb.inv) hinit]
      exact not_congr (exists_congr fun _ => hb.ordered_iff h.plain.tables hc hp)
    · have hrej : AdyaSIChain.constructEncoding o H histories strongSession hasFinal =
          .error (.reject "cyclic dependency") := by
        rw [AdyaSIChain.constructEncoding, hknown, ok_bind, hg]
      refine iff_of_true (.inl ⟨_, hrej⟩) ?_
      rintro ⟨_, hex⟩
      exact AdyaSIChain.not_closed_of_explained hex hC hl

end Verdicts

section Scans

variable (H : List (Entry (Mop κ Value))) (histories : List (List (Entry (Mop κ Value))))
  (strongSession hasFinal : Bool) (st : Dict κ Value) (q : Nat) (k : κ)

end Scans

section Refusals

variable {o : SetOrder} {H : List (Entry (Mop κ Value))}
  {histories : List (List (Entry (Mop κ Value)))}
  {strongSession hasFinal : Bool} {t : Tables κ} {st : Dict κ Value} {q m : Nat} {k : κ}

end Refusals

section Example

end Example

end Viper
