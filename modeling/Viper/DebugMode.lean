import Viper.Z3Checkers

/-!
# Debug mode of the BC checker

`debug` repeats the constraints of `check` for Z3, on the split numbering of the
events. Up to the write order of the keys the two agree. For the write order
`debug` converts the events of two writers a second time, so that it relates the
commit of one unrelated transaction with the begin of another.
-/
namespace Viper

open Py Precedence

namespace MonoBCPolyGraphChecker

variable {n : Nat} {E : List Edge} {P : List (Edge × Edge)}

theorem whichEdge_iff (R : Interp) (e : Edge) :
    whichEdge R e.src e.dst e.type ↔ R e.before.1.num e.before.2.num := by
  obtain ⟨src, dst, type⟩ := e
  cases type <;> rfl

/-- A model of the assumptions of debug mode. -/
structure DebugModel (n : Nat) (E : List Edge) (P : List (Edge × Edge)) (R : Interp) : Prop where
  begins : ∀ i, i < n → R (si i) (ci i)
  irrefl : ∀ a : Event, a.idx < n → ¬ R a.num a.num
  trans : ∀ {u v w}, R u v → R v w → R u w
  known : ∀ e ∈ E, R e.before.1.num e.before.2.num
  pairs : ∀ p ∈ P, Xor (R p.1.before.1.num p.1.before.2.num) (R p.2.before.1.num p.2.before.2.num)

theorem sat_debug_iff {κ : Type} (ext : Option (Dict κ (List Nat))) :
    Sat (debug n E P ext) ↔ ∃ R, DebugModel n E P R ∧ ∀ q ∈ writerPairs ext, writeOrder q R := by
  refine exists_congr fun R => ?_
  simp only [debug, List.mem_append, List.mem_map, List.mem_range, List.mem_range'_1,
    List.mem_singleton]
  constructor
  · intro h
    refine ⟨⟨fun i hi => ?_, fun a ha => ?_,
      fun {u v w} h₁ h₂ => ?_, fun e he => ?_, fun p hp => ?_⟩, fun q hq => ?_⟩
    · exact h _ (.inl (.inl (.inl (.inl (.inl ⟨i, hi, rfl⟩)))))
    · refine h (fun R => ¬ R a.num a.num) (.inl (.inl (.inl (.inl (.inr ⟨a.num, ?_, rfl⟩)))))
      have h₁ := Event.num_le ha
      have h₂ := a.num_pos
      omega
    · exact h _ (.inl (.inl (.inl (.inr rfl)))) u v w ⟨h₁, h₂⟩
    · exact (whichEdge_iff R e).mp (h _ (.inl (.inl (.inr ⟨e, he, rfl⟩))))
    · have hx := h _ (.inl (.inr ⟨p, hp, rfl⟩))
      rwa [whichEdge_iff, whichEdge_iff] at hx
    · exact h _ (.inr ⟨q, hq, rfl⟩)
  · rintro ⟨h, hw⟩ f hf
    rcases hf
      with ((((⟨i, hi, rfl⟩ | ⟨u, hu, rfl⟩) | rfl) | ⟨e, he, rfl⟩) | ⟨p, hp, rfl⟩) | ⟨q, hq, rfl⟩
    · exact h.begins i hi
    · obtain ⟨a, ha, rfl⟩ := Event.exists_num hu.1 hu.2
      exact h.irrefl a ha
    · exact fun u v w huv => h.trans huv.1 huv.2
    · exact (whichEdge_iff R e).mpr (h.known e he)
    · simp only [whichEdge_iff]
      exact h.pairs p hp
    · exact hw q hq

/-- Without a write order, debug mode looks for an order of the events too. -/
theorem debugModel_iff (hP : Paired n E P) :
    (∃ R, DebugModel n E P R) ↔ ∃ _ : LinearOrder Event, PairOrder n E P := by
  have hsrc : ∀ p ∈ P, p.1.src < n ∧ p.2.src < n := by
    intro p hp
    rcases hP.pairs p hp with ⟨x, i, j, hs, rfl | rfl⟩ | ⟨i, j, hi, hj, _, _, _, rfl⟩
    · exact ⟨hs.lt.1, hs.lt.2.2⟩
    · exact ⟨hs.lt.2.2, hs.lt.1⟩
    · exact ⟨hi, hj⟩
  constructor
  · rintro ⟨R, h⟩
    obtain ⟨lo, hR⟩ := exists_extension (n := n) (R := R) h.trans h.irrefl
    have hedge : ∀ e : Edge, e.src < n → R e.before.1.num e.before.2.num → e.Holds :=
      fun e hs he => hR (by rw [e.idx_src]; exact hs) he
    refine ⟨lo, fun i hi => hR (a := .s i) (b := .c i) hi (h.begins i hi),
      fun e he => hedge e (hP.src_lt e he) (h.known e he), fun p hp => ?_⟩
    rcases h.pairs p hp with ⟨h₁, _⟩ | ⟨h₂, _⟩
    · exact .inl (hedge _ (hsrc p hp).1 h₁)
    · exact .inr (hedge _ (hsrc p hp).2 h₂)
  · rintro ⟨lo, h⟩
    refine ⟨orderInterp, fun i hi => (orderInterp_num (.s i) (.c i)).mpr (h.begins i hi),
      fun a _ ha => lt_irrefl a ((orderInterp_num a a).mp ha), orderInterp_trans,
      fun e he => (orderInterp_num _ _).mpr (h.known e he), fun p hp => ?_⟩
    have hnot := (Z301Checker.not_both hP h hp).2
    rw [orderInterp_num, orderInterp_num]
    rcases h.pairs p hp with h₁ | h₂
    · exact .inl ⟨h₁, fun h₂ => hnot ⟨h₁, h₂⟩⟩
    · exact .inr ⟨h₂, fun h₁ => hnot ⟨h₁, h₂⟩⟩

/-- The write order of debug mode never relates the events of its writers. -/
theorem writeOrder_misses {q : Nat × Nat} (hq : q.1 ≠ q.2) :
    ¬ ∀ R, writeOrder q R ↔ Xor (R (ci q.1) (si q.2)) (R (ci q.2) (si q.1)) := by
  intro h
  -- the relation that holds of the intended events only
  let R : Interp := fun u v => u = ci q.1 ∧ v = si q.2
  have hright : Xor (R (ci q.1) (si q.2)) (R (ci q.2) (si q.1)) := by
    refine .inl ⟨⟨rfl, rfl⟩, fun hr => ?_⟩
    have := hr.1
    simp only [ci] at this
    omega
  rcases (h R).mpr hright with ⟨hl, _⟩ | ⟨hl, _⟩
  · have := hl.1
    simp only [ci] at this
    omega
  · have h₁ := hl.1
    have h₂ := hl.2
    simp only [ci, si] at h₁ h₂
    omega

end MonoBCPolyGraphChecker

section Agreement

variable {κ : Type} [LinearOrder κ] [ToString κ]

/-- Debug mode agrees with normal mode and orders the writers of each key,
exactly when no key has two external writers. -/
theorem debug_agrees_iff (o : SetOrder) (H : List (Entry (Mop κ Value)))
    (histories : List (List (Entry (Mop κ Value))))
    (strongSession hasFinal : Bool) (G : ArgumentedPolyGraph κ)
    (hG : AdyaSI.constructGraphFromLog o H histories strongSession hasFinal = .ok G) :
    ((Sat (MonoBCPolyGraphChecker.debug G.nNodes (G.edgeList o) (o.iter G.edgePairs)
      (some G.extKey2writes)) ↔
          GraphSat.Satisfiable
            (MonoBCPolyGraphChecker.check G.nNodes (G.edgeList o) (o.iter G.edgePairs)
              (some G.extKey2writes))) ∧
        ∀ q ∈ writerPairs (some G.extKey2writes), ∀ R,
          MonoBCPolyGraphChecker.writeOrder q R ↔ Xor (R (ci q.1) (si q.2)) (R (ci q.2) (si q.1))) ↔
      ∀ k i j v v', Has extWritesFn H i k v → Has extWritesFn H j k v' → i = j := by
  obtain ⟨t, ht, hb⟩ := AdyaSI.built_of_ok hG
  constructor
  · rintro ⟨_, horder⟩ k i j v v' hi hj
    by_contra hne
    rcases (hb.writers.pairs i j).mpr ⟨hne, k, v, v', hi, hj⟩ with hm | hm
    · exact MonoBCPolyGraphChecker.writeOrder_misses (q := (i, j)) hne (horder _ hm)
    · exact MonoBCPolyGraphChecker.writeOrder_misses (q := (j, i)) (Ne.symm hne) (horder _ hm)
  · intro h
    have hnone : writerPairs (some G.extKey2writes) = [] := by
      refine List.eq_nil_iff_forall_not_mem.mpr (fun q hq => ?_)
      obtain ⟨hne, k, v, v', hi, hj⟩ := (hb.writers.pairs q.1 q.2).mp (.inl hq)
      exact hne (h k _ _ v v' hi hj)
    refine ⟨?_, fun q hq => by rw [hnone] at hq; cases hq⟩
    rw [MonoBCPolyGraphChecker.sat_debug_iff, hb.pairOrder_iff ht,
      ← MonoBCPolyGraphChecker.debugModel_iff (hb.paired ht), hnone]
    simp

/-- Transactions 1 and 2 write one key; 5 reads a key before 4 writes it, and 3
another one before 6 writes it. -/
def crossedReads : List (Entry (Mop Nat Value)) :=
  [⟨0, some [.w 7 (.int 70) true, .w 8 (.int 80) true]⟩, ⟨1, some [.w 9 (.int 91) true]⟩,
    ⟨2, some [.w 9 (.int 92) true]⟩,
    ⟨3, some [.r 8 (.int 80) false]⟩, ⟨4, some [.w 7 (.int 74) true]⟩,
    ⟨5, some [.r 7 (.int 70) false]⟩, ⟨6, some [.w 8 (.int 86) true]⟩]

def crossedGraph : ArgumentedPolyGraph Nat :=
  ((AdyaSI.constructGraphFromLog .stored crossedReads [] false false).toOption).getD (.init 0)

theorem crossedGraph_built : AdyaSI.constructGraphFromLog .stored crossedReads
    [] false false = .ok crossedGraph := rfl

theorem debug_agrees_iff_crossed :
    AdyaSI.constructGraphFromLog .stored crossedReads [] false false = .ok crossedGraph ∧
      (((Sat (MonoBCPolyGraphChecker.debug crossedGraph.nNodes (crossedGraph.edgeList .stored)
              (SetOrder.stored.iter crossedGraph.edgePairs) (some crossedGraph.extKey2writes)) ↔
            GraphSat.Satisfiable
              (MonoBCPolyGraphChecker.check crossedGraph.nNodes (crossedGraph.edgeList .stored)
              (SetOrder.stored.iter crossedGraph.edgePairs) (some crossedGraph.extKey2writes))) ∧
          ∀ q ∈ writerPairs (some crossedGraph.extKey2writes), ∀ R,
            MonoBCPolyGraphChecker.writeOrder q R ↔
            Xor (R (ci q.1) (si q.2)) (R (ci q.2) (si q.1))) ↔
        ∀ k i j v v', Has extWritesFn crossedReads i k v →
        Has extWritesFn crossedReads j k v' → i = j) :=
  ⟨crossedGraph_built, debug_agrees_iff .stored crossedReads
    [] false false crossedGraph crossedGraph_built⟩

/-- One transaction after the other, with 5 before 4. -/
def crossedTime : Event → Int
  | .s i => if i = 4 then 10 else if i = 5 then 8 else 2 * i
  | .c i => if i = 4 then 11 else if i = 5 then 9 else 2 * i + 1

/-- Normal mode accepts the history, debug mode does not. -/
theorem crossedGraph_disagrees :
    AdyaSI.constructGraphFromLog .stored crossedReads [] false false = .ok crossedGraph ∧
      GraphSat.Satisfiable
        (MonoBCPolyGraphChecker.check crossedGraph.nNodes (crossedGraph.edgeList .stored)
        (SetOrder.stored.iter crossedGraph.edgePairs) (some crossedGraph.extKey2writes)) ∧
      ¬ Sat (MonoBCPolyGraphChecker.debug crossedGraph.nNodes (crossedGraph.edgeList .stored)
        (SetOrder.stored.iter crossedGraph.edgePairs) (some crossedGraph.extKey2writes)) := by
  obtain ⟨t, ht, hb⟩ := AdyaSI.built_of_ok crossedGraph_built
  refine ⟨crossedGraph_built,
    (hb.pairOrder_iff ht).mpr (exists_order_of_times crossedTime ?_ ?_ ?_), ?_⟩
  · decide
  · decide
  · decide
  · rw [MonoBCPolyGraphChecker.sat_debug_iff]
    rintro ⟨R, h, hw⟩
    have h54 : R (si 5) (ci 4) := h.known ⟨5, 4, .rw⟩ (by decide)
    have h36 : R (si 3) (ci 6) := h.known ⟨3, 6, .rw⟩ (by decide)
    -- the write order of 1 and 2 is taken for one of 4, 5 and of 6, 3
    rcases hw (1, 2) (by decide) with ⟨h45, _⟩ | ⟨h63, _⟩
    · exact h.irrefl (.c 4) (by decide) (h.trans h45 h54)
    · exact h.irrefl (.c 6) (by decide) (h.trans h63 h36)

end Agreement

end Viper
