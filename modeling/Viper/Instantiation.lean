import Viper.BCOrder

/-!
# Instantiations of an encoding

An instantiation takes, next to the known edges, one of the two edge sets of
every constraint. Its BC graph relates the begin and commit events directly,
without the node numbers of a checker. Acyclic instantiations and orders of the
events are the same thing, up to the choice of a linear extension.
-/
namespace Viper

open Py Precedence

section Instances

variable {κ : Type}

/-- The BC graph of the instantiation that `side` chooses. -/
inductive BCEdge (g : ArgumentedPolyGraph κ) (con : List Constraint) (side : Constraint → Bool) :
    Event → Event → Prop
  | begins {i} : i < g.nNodes → BCEdge g con side (.s i) (.c i)
  | known {a b} : g.Before a b → BCEdge g con side a b
  | chosen {p e} : p ∈ con → e ∈ (if side p then p.1 else p.2) →
      BCEdge g con side e.before.1 e.before.2

/-- A builder gives a verdict against the history, or no instantiation of its
encoding is acyclic. -/
def Refuses {α : Type} (result : Except Err α)
    (encoding : α → ArgumentedPolyGraph κ × List Constraint) : Prop :=
  (∃ msg, result = .error (.reject msg)) ∨
    ∃ a, result = .ok a ∧ ∀ side, ¬ Acyclic (BCEdge (encoding a).1 (encoding a).2 side)

variable {g : ArgumentedPolyGraph κ} {con : List Constraint}

theorem ordered_of_bcEdges [LinearOrder Event] (o : SetOrder) {side : Constraint → Bool}
    (hinit : ∀ i, 0 < i → i < g.nNodes → g.Before (.c 0) (.s i))
    (h : ∀ a b, BCEdge g con side a b → a < b) :
    Ordered g.nNodes (g.edgeList o) con where
  begins i hi := h _ _ (.begins hi)
  initial i h0 hi := h _ _ (.known (hinit i h0 hi))
  known e he := h _ _ (.known ⟨e.src, e.dst, e.type, ((g.mem_edgeList o e).mp he).2, rfl⟩)
  choice p hp := by
    cases hs : side p with
    | true => exact .inl (fun e he => h _ _ (.chosen hp (by simpa [hs] using he)))
    | false => exact .inr (fun e he => h _ _ (.chosen hp (by simpa [hs] using he)))

open Classical in
/-- An order of the events chooses a side of every constraint. -/
theorem bcEdges_of_ordered [LinearOrder Event] {o : SetOrder} (hg : g.Inv)
    (h : Ordered g.nNodes (g.edgeList o) con) :
    ∃ side, ∀ a b, BCEdge g con side a b → a < b := by
  refine ⟨fun p => decide (∀ e ∈ p.1, e.Holds), ?_⟩
  rintro _ _ (hi | hb | @⟨p, e, hp, he⟩)
  · exact h.begins _ hi
  · exact before_lt hg h.known hb
  · by_cases hs : ∀ e ∈ p.1, e.Holds
    · rw [if_pos (decide_eq_true hs)] at he
      exact hs e he
    · rw [if_neg (by simpa using hs)] at he
      exact (h.choice p hp).resolve_left hs e he

variable (hg : g.Inv) (hinit : ∀ i, 0 < i → i < g.nNodes → g.Before (.c 0) (.s i))
include hg hinit

theorem exists_acyclic_iff (o : SetOrder) : (∃ side, Acyclic (BCEdge g con side)) ↔
    ∃ _ : LinearOrder Event, Ordered g.nNodes (g.edgeList o) con := by
  constructor
  · rintro ⟨side, ha⟩
    obtain ⟨lo, hlt⟩ := acyclic_iff_linearOrder.mp ha
    exact ⟨lo, ordered_of_bcEdges o hinit hlt⟩
  · rintro ⟨_, h⟩
    obtain ⟨side, hlt⟩ := bcEdges_of_ordered hg h
    exact ⟨side, acyclic_of_map id hlt⟩

/-- Reachability in all acyclic instantiations is precedence in all orders. -/
theorem reaches_iff (o : SetOrder) {a b : Event} (hne : a ≠ b) :
    (∀ side, Acyclic (BCEdge g con side) → Relation.TransGen (BCEdge g con side) a b) ↔
      ∀ _ : LinearOrder Event, Ordered g.nNodes (g.edgeList o) con → a < b := by
  constructor
  · intro hr _ h
    obtain ⟨side, hlt⟩ := bcEdges_of_ordered hg h
    exact lt_of_path id hlt (hr side (acyclic_of_map id hlt))
  · intro ho side ha
    by_contra hn
    have hrefl : ¬ Relation.ReflTransGen (BCEdge g con side) a b := fun h =>
      (Relation.reflTransGen_iff_eq_or_transGen.mp h).elim (fun he => hne he.symm) hn
    -- with the way back added, an order puts `b` first
    obtain ⟨lo, hlt⟩ := acyclic_iff_linearOrder.mp (ha.insert hrefl)
    have hab := ho lo (ordered_of_bcEdges o hinit (fun x y hxy => hlt x y (.inl hxy)))
    exact lt_asymm hab (hlt b a (.inr ⟨rfl, rfl⟩))

end Instances

section Ranks

variable {κ : Type}

/-- A numbering of the events along which all edges of one instantiation go up:
it takes the first edge set of every constraint. -/
def ascends (rank : Event → Nat) (g : ArgumentedPolyGraph κ) (con : List Constraint) : Bool :=
  (List.range g.nNodes).all (fun i => rank (.s i) < rank (.c i)) &&
    (g.edgeList .stored).all (fun e => rank e.before.1 < rank e.before.2) &&
    con.all (fun p => p.1.all fun e => rank e.before.1 < rank e.before.2)

theorem acyclic_of_ascends (rank : Event → Nat) {g : ArgumentedPolyGraph κ}
    {con : List Constraint} (hg : g.Inv)
    (h : ascends rank g con = true) : Acyclic (BCEdge g con (fun _ => true)) := by
  simp only [ascends, Bool.and_eq_true, List.all_eq_true, List.mem_range, decide_eq_true_eq] at h
  obtain ⟨⟨hbegin, hknown⟩, hchosen⟩ := h
  refine acyclic_of_map rank (fun a b hab => ?_)
  cases hab with
  | begins hi => exact hbegin _ hi
  | known hb =>
    obtain ⟨src, dst, type, hm, he⟩ := hb
    have hlt := hknown ⟨src, dst, type⟩ ((g.mem_edgeList .stored _).mpr ⟨hg.src_lt hm, hm⟩)
    rwa [he] at hlt
  | chosen hp he => exact hchosen _ hp _ he

end Ranks

end Viper
