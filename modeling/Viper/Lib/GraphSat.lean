import Viper.Lib.Precedence
import Mathlib.Algebra.Group.Nat.Defs

/-!
# Satisfiability modulo graphs

A solver holds one weighted directed graph whose edges are fresh Boolean
literals, a list of unsigned bit-vectors, and a list of assertions. `acyclic`
and `distanceLeq` speak about the edges whose literal is true.

An encoder only ever adds edges together with an assertion about their own
literals. `Within st H β` says that the assertions made so far can be met with
every true edge inside `H` and bit-vectors `β`; each encoding step then
multiplies it by one condition on `H`, so no literal is ever named in a proof
about an encoding.
-/
namespace GraphSat

open Precedence

/-- A weighted edge relation on nodes: source, target, weight. -/
abbrev Rel := Nat → Nat → Nat → Prop

inductive Formula where
  | tt : Formula
  | lit : Nat → Formula
  | neg : Formula → Formula
  | conj : Formula → Formula → Formula
  | xor : Formula → Formula → Formula
  | bvLt : Nat → Nat → Formula
  | bvNe : Nat → Nat → Formula
  | acyclic : Formula
  | distanceLeq : Nat → Nat → Nat → Formula
  deriving DecidableEq, Repr

/-- Conjunction of a list of formulas. -/
def Formula.all : List Formula → Formula
  | [] => .tt
  | f :: fs => .conj f (Formula.all fs)

structure Solver where
  nodes : Nat
  edges : List (Nat × Nat × Nat)
  bvs : List Nat
  asserts : List Formula
  deriving DecidableEq, Repr

def newSolver : Solver := ⟨0, [], [], []⟩

namespace Solver

def addNode (st : Solver) : Nat × Solver := (st.nodes, { st with nodes := st.nodes + 1 })

def addEdge (st : Solver) (u v w : Nat) : Nat × Solver :=
  (st.edges.length, { st with edges := st.edges ++ [(u, v, w)] })

def bitVector (st : Solver) (width : Nat) : Nat × Solver :=
  (st.bvs.length, { st with bvs := st.bvs ++ [width] })

def assert (st : Solver) (f : Formula) : Solver := { st with asserts := st.asserts ++ [f] }

/-- Edges in a batch, with the literals they receive. -/
def addEdges (st : Solver) : List (Nat × Nat × Nat) → List Nat × Solver
  | [] => ([], st)
  | (u, v, w) :: es =>
    let (l, st₁) := st.addEdge u v w
    let (ls, st₂) := st₁.addEdges es
    (l :: ls, st₂)

end Solver

/-- A path and its total weight. -/
inductive Path (A : Rel) : Nat → Nat → Nat → Prop where
  | nil (u : Nat) : Path A u u 0
  | cons {u v x w d : Nat} : A u v w → Path A v x d → Path A u x (w + d)

theorem Path.mono {A B : Rel} (h : ∀ u v w, A u v w → B u v w) {u v d : Nat} (p : Path A u v d) :
    Path B u v d := by
  induction p with
  | nil u => exact .nil u
  | cons ha _ ih => exact .cons (h _ _ _ ha) ih

/-- Truth of a formula: `A` are the true edges, `L` the literals, `β` the bit-vectors. -/
def eval (A : Rel) (L : Nat → Prop) (β : Nat → Nat) : Formula → Prop
  | .tt => True
  | .lit i => L i
  | .neg f => ¬ eval A L β f
  | .conj f g => eval A L β f ∧ eval A L β g
  | .xor f g => Xor (eval A L β f) (eval A L β g)
  | .bvLt a b => β a < β b
  | .bvNe a b => β a ≠ β b
  | .acyclic => Acyclic (fun u v => ∃ w, A u v w)
  | .distanceLeq u v d => ∃ w, w ≤ d ∧ Path A u v w

/-- The edges whose literal is true. -/
def Active (E : List (Nat × Nat × Nat)) (L : Nat → Prop) : Rel :=
  fun u v w => ∃ i, E[i]? = some (u, v, w) ∧ L i

/-- Every declared bit-vector holds a value of its width. -/
def InWidth (st : Solver) (β : Nat → Nat) : Prop := ∀ i w, st.bvs[i]? = some w → β i < 2 ^ w

def Satisfiable (st : Solver) : Prop :=
  ∃ L β, InWidth st β ∧ ∀ f ∈ st.asserts, eval (Active st.edges L) L β f

/-- A decision procedure for the constraints of a solver. -/
structure Oracle where
  solve : Solver → Bool
  solve_iff : ∀ st, solve st = true ↔ Satisfiable st

open Classical in
/-- The ideal solver. -/
noncomputable def Oracle.exact : Oracle :=
  ⟨fun st => decide (Satisfiable st), fun _ => decide_eq_true_iff⟩

/-- Only literals from the given range, and no statement about the graph. -/
def Formula.Over (lo hi : Nat) : Formula → Prop
  | .tt => True
  | .lit i => lo ≤ i ∧ i < hi
  | .neg f => f.Over lo hi
  | .conj f g => f.Over lo hi ∧ g.Over lo hi
  | .xor f g => f.Over lo hi ∧ g.Over lo hi
  | .bvLt _ _ => True
  | .bvNe _ _ => True
  | .acyclic => False
  | .distanceLeq _ _ _ => False

theorem Formula.Over.mono {lo lo' hi hi' : Nat} (hl : lo' ≤ lo) (hh : hi ≤ hi') {f : Formula}
    (h : f.Over lo hi) : f.Over lo' hi' := by
  induction f with
  | lit i => exact ⟨hl.trans h.1, lt_of_lt_of_le h.2 hh⟩
  | neg f ih => exact ih h
  | conj f g ihf ihg => exact ⟨ihf h.1, ihg h.2⟩
  | xor f g ihf ihg => exact ⟨ihf h.1, ihg h.2⟩
  | tt | bvLt | bvNe => trivial
  | acyclic | distanceLeq => exact h

/-- A formula without literals is over every range. -/
theorem Formula.Over.mono' {f : Formula} (h : f.Over 0 0) (lo hi : Nat) : f.Over lo hi := by
  induction f with
  | lit i => exact absurd h.2 (Nat.not_lt_zero i)
  | neg f ih => exact ih h
  | conj f g ihf ihg => exact ⟨ihf h.1, ihg h.2⟩
  | xor f g ihf ihg => exact ⟨ihf h.1, ihg h.2⟩
  | tt | bvLt | bvNe => trivial
  | acyclic | distanceLeq => exact h

/-- A formula over a range of literals sees nothing else of an assignment. -/
theorem eval_congr {lo hi : Nat} {f : Formula} (h : f.Over lo hi) {A A' : Rel} {L L' : Nat → Prop}
    {β : Nat → Nat} (hL : ∀ i, lo ≤ i → i < hi → (L i ↔ L' i)) :
    eval A L β f ↔ eval A' L' β f := by
  induction f with
  | lit i => exact hL i h.1 h.2
  | neg f ih => exact not_congr (ih h)
  | conj f g ihf ihg => exact and_congr (ihf h.1) (ihg h.2)
  | xor f g ihf ihg => simp only [eval, Xor, ihf h.1, ihg h.2]
  | tt | bvLt | bvNe => exact Iff.rfl
  | acyclic | distanceLeq => exact False.elim h

theorem over_all {lo hi : Nat} {ls : List Nat} (h : ∀ i ∈ ls, lo ≤ i ∧ i < hi) :
    (Formula.all (ls.map .lit)).Over lo hi := by
  induction ls with
  | nil => trivial
  | cons i ls ih =>
    exact ⟨h i List.mem_cons_self, ih (fun j hj => h j (List.mem_cons_of_mem i hj))⟩

theorem eval_all {A : Rel} {L : Nat → Prop} {β : Nat → Nat} (ls : List Nat) :
    eval A L β (Formula.all (ls.map .lit)) ↔ ∀ i ∈ ls, L i := by
  induction ls with
  | nil => simp [Formula.all, eval]
  | cons i ls ih => simp [Formula.all, eval, ih]

/-- No assertion mentions the graph or a literal that does not exist. -/
def Scoped (st : Solver) : Prop := ∀ f ∈ st.asserts, f.Over 0 st.edges.length

/-- The assertions can be met with bit-vectors `β` and all true edges in `H`. -/
def Within (st : Solver) (H : Rel) (β : Nat → Nat) : Prop :=
  ∃ L, (∀ f ∈ st.asserts, eval H L β f) ∧ ∀ u v w, Active st.edges L u v w → H u v w

/-- Add fresh edges and one assertion about them. -/
def extend (st : Solver) (es : List (Nat × Nat × Nat)) (f : Formula) : Solver :=
  { st with edges := st.edges ++ es, asserts := st.asserts ++ [f] }

theorem scoped_extend {st : Solver} (hs : Scoped st) {es : List (Nat × Nat × Nat)} {f : Formula}
    (hf : f.Over st.edges.length (st.edges.length + es.length)) : Scoped (extend st es f) := by
  intro g hg
  simp only [extend, List.mem_append, List.mem_singleton, List.length_append] at hg ⊢
  rcases hg with hg | rfl
  · exact (hs g hg).mono (Nat.le_refl 0) (Nat.le_add_right _ _)
  · exact hf.mono (Nat.zero_le _) (Nat.le_refl _)

theorem active_append {E E' : List (Nat × Nat × Nat)} {L : Nat → Prop} {u v w : Nat} :
    Active (E ++ E') L u v w ↔
      Active E L u v w ∨ ∃ i, E'[i]? = some (u, v, w) ∧ L (E.length + i) := by
  constructor
  · rintro ⟨i, hi, hL⟩
    by_cases hlt : i < E.length
    · exact .inl ⟨i, by rwa [List.getElem?_append_left hlt] at hi, hL⟩
    · refine .inr ⟨i - E.length, ?_, ?_⟩
      · rwa [List.getElem?_append_right (not_lt.mp hlt)] at hi
      · rwa [Nat.add_sub_cancel' (not_lt.mp hlt)]
  · rintro (⟨i, hi, hL⟩ | ⟨i, hi, hL⟩)
    · have hlt : i < E.length := (List.getElem?_eq_some_iff.mp hi).1
      exact ⟨i, by rwa [List.getElem?_append_left hlt], hL⟩
    · exact ⟨E.length +
        i, by rw [List.getElem?_append_right (Nat.le_add_right _ _)]; simpa using hi, hL⟩

/-- One encoding step: the old assertions and the new one are met independently,
because they share no literal. -/
theorem within_extend {st : Solver} (hs : Scoped st) {es : List (Nat × Nat × Nat)} {f : Formula}
    (hf : f.Over st.edges.length (st.edges.length + es.length)) (H : Rel) (β : Nat → Nat) :
    Within (extend st es f) H β ↔ Within st H β ∧
      ∃ L, eval H L β f ∧ ∀ i u v w, es[i]? = some (u, v, w) → L (st.edges.length + i) →
      H u v w := by
  constructor
  · rintro ⟨L, hL, hH⟩
    refine ⟨⟨L, ?_, ?_⟩, L, ?_, ?_⟩
    · exact fun g hg => hL g (List.mem_append_left _ hg)
    · exact fun u v w h => hH u v w (active_append.mpr (.inl h))
    · exact hL f (List.mem_append_right _ (List.mem_singleton.mpr rfl))
    · exact fun i u v w hi hl => hH u v w (active_append.mpr (.inr ⟨i, hi, hl⟩))
  · rintro ⟨⟨L₁, hL₁, hH₁⟩, L₂, hL₂, hH₂⟩
    let L : Nat → Prop := fun i => if i < st.edges.length then L₁ i else L₂ i
    refine ⟨L, ?_, ?_⟩
    · intro g hg
      rcases List.mem_append.mp hg with hg | hg
      · apply (eval_congr (hs g hg) (L := L₁) (A := H) ?_).mp (hL₁ g hg)
        intro i _ hi
        simp [L, hi]
      · rw [List.mem_singleton.mp hg]
        apply (eval_congr hf (L := L₂) (A := H) ?_).mp hL₂
        intro i hi _
        simp [L, not_lt.mpr hi]
    · intro u v w h
      rcases active_append.mp h with ⟨i, hi, hl⟩ | ⟨i, hi, hl⟩
      · have hlt : i < st.edges.length := (List.getElem?_eq_some_iff.mp hi).1
        exact hH₁ u v w ⟨i, hi, by simpa [L, hlt] using hl⟩
      · have hge : ¬ st.edges.length + i < st.edges.length := not_lt.mpr (Nat.le_add_right _ _)
        exact hH₂ i u v w hi (by simpa only [L, if_neg hge] using hl)

theorem scoped_new : Scoped newSolver := fun _ hf => absurd hf List.not_mem_nil

theorem within_new (H : Rel) (β : Nat → Nat) : Within newSolver H β :=
  ⟨fun _ => False, fun _ hf => absurd hf List.not_mem_nil, fun _ _ _ ⟨_, _, hl⟩ => False.elim hl⟩

/-- Assert one edge: it has to lie in `H`. -/
theorem within_edge {st : Solver} (hs : Scoped st) (u v w : Nat) (H : Rel) (β : Nat → Nat) :
    Within (extend st [(u, v, w)] (.lit st.edges.length)) H β ↔ Within st H β ∧ H u v w := by
  rw [within_extend hs (by exact ⟨le_refl _, Nat.lt_succ_self _⟩)]
  refine and_congr_right fun _ => ⟨?_, fun h => ⟨fun _ => True, trivial, ?_⟩⟩
  · rintro ⟨L, hL, hH⟩
    exact hH 0 u v w rfl hL
  · intro i u' v' w' hi _
    cases i with
    | zero => cases hi; exact h
    | succ i => cases hi

/-- Assert a formula about bit-vectors only. -/
theorem within_bv {st : Solver} (hs : Scoped st) {f : Formula} (hf : f.Over 0 0) (H : Rel)
    (β : Nat → Nat) :
    Within (extend st [] f) H β ↔ Within st H β ∧ eval H (fun _ => False) β f := by
  rw [within_extend hs (hf.mono' st.edges.length _)]
  refine and_congr_right fun _ => ⟨?_, fun h => ⟨fun _ => False, h, ?_⟩⟩
  · rintro ⟨L, hL, _⟩
    exact (eval_congr hf (fun i _ hi => absurd hi (Nat.not_lt_zero i))).mp hL
  · intro i u v w hi
    cases hi

/-- `f` demands all literals of a range, and the condition `c` besides. -/
structure Demands (f : Formula) (lo len : Nat) (β : Nat → Nat) (c : Prop) : Prop where
  bounded : f.Over lo (lo + len)
  iff : ∀ A L, eval A L β f ↔ (∀ i, i < len → L (lo + i)) ∧ c

theorem demands_lit (lo : Nat) (β : Nat → Nat) : Demands (.lit lo) lo 1 β True where
  bounded := ⟨le_refl _, Nat.lt_succ_self _⟩
  iff A L := by simp [eval]

theorem demands_all (lo len : Nat) (β : Nat → Nat) :
    Demands (Formula.all ((List.range' lo len).map .lit)) lo len β True where
  bounded := over_all (fun i hi => by simpa using hi)
  iff A L := by
    rw [eval_all, and_true]
    constructor
    · intro h i hi
      exact h (lo + i) (by simp [hi])
    · intro h i hi
      obtain ⟨hl, hu⟩ := List.mem_range'_1.mp hi
      have := h (i - lo) (by omega)
      rwa [Nat.add_sub_cancel' hl] at this

theorem Demands.conj {f g : Formula} {lo len : Nat} {β : Nat → Nat} {c : Prop}
    (h : Demands f lo len β c) (hg : g.Over 0 0) :
    Demands (.conj f g) lo len β (c ∧ eval (fun _ _ _ => False) (fun _ => False) β g) where
  bounded := ⟨h.bounded, hg.mono' _ _⟩
  iff A L := by
    have he : eval A L β g ↔ eval (fun _ _ _ => False) (fun _ => False) β g :=
      eval_congr hg (fun i _ hi => absurd hi (Nat.not_lt_zero i))
    rw [eval, h.iff, he, and_assoc]

/-- Two nonempty batches of fresh edges, exactly one of which is to be true as a
whole together with its side condition: one of the alternatives has to be
available in `H`. -/
theorem within_xor {st : Solver} (hs : Scoped st) {es₁ es₂ : List (Nat × Nat × Nat)}
    (hn₁ : es₁ ≠ []) (hn₂ : es₂ ≠ []) {f₁ f₂ : Formula} {c₁ c₂ : Prop} {β : Nat → Nat}
    (h₁ : Demands f₁ st.edges.length es₁.length β c₁)
    (h₂ : Demands f₂ (st.edges.length + es₁.length) es₂.length β c₂) (H : Rel) :
    Within (extend st (es₁ ++ es₂) (.xor f₁ f₂)) H β ↔ Within st H β ∧
      (((∀ u v w, (u, v, w) ∈ es₁ → H u v w) ∧ c₁) ∨
        ((∀ u v w, (u, v, w) ∈ es₂ → H u v w) ∧ c₂)) := by
  have hpos₁ : 0 < es₁.length := List.length_pos_iff.mpr hn₁
  have hpos₂ : 0 < es₂.length := List.length_pos_iff.mpr hn₂
  have hover : (Formula.xor f₁ f₂).Over st.edges.length
      (st.edges.length + (es₁ ++ es₂).length) := by
    rw [List.length_append, ← Nat.add_assoc]
    exact ⟨h₁.bounded.mono (le_refl _) (Nat.le_add_right _ _),
      h₂.bounded.mono (Nat.le_add_right _ _) (le_refl _)⟩
  rw [within_extend hs hover]
  refine and_congr_right fun _ => ⟨?_, ?_⟩
  · rintro ⟨L, hL, hH⟩
    simp only [eval, Xor, h₁.iff, h₂.iff] at hL
    rcases hL with ⟨⟨hl, hc⟩, _⟩ | ⟨⟨hl, hc⟩, _⟩
    · refine .inl ⟨fun u v w hm => ?_, hc⟩
      obtain ⟨i, hi⟩ := List.getElem?_of_mem hm
      have hlt : i < es₁.length := (List.getElem?_eq_some_iff.mp hi).1
      exact hH i u v w (by rwa [List.getElem?_append_left hlt]) (hl i hlt)
    · refine .inr ⟨fun u v w hm => ?_, hc⟩
      obtain ⟨i, hi⟩ := List.getElem?_of_mem hm
      have hlt : i < es₂.length := (List.getElem?_eq_some_iff.mp hi).1
      refine hH (es₁.length + i) u v w ?_ ?_
      · rwa [List.getElem?_append_right (Nat.le_add_right _ _), Nat.add_sub_cancel_left]
      · rw [← Nat.add_assoc]
        exact hl i hlt
  · rintro (⟨hH, hc⟩ | ⟨hH, hc⟩)
    · refine ⟨fun i => i < st.edges.length + es₁.length, ?_, ?_⟩
      · simp only [eval, Xor, h₁.iff, h₂.iff]
        refine .inl ⟨⟨fun i hi => Nat.add_lt_add_left hi _, hc⟩, fun hb => ?_⟩
        exact absurd (hb.1 0 hpos₂) (Nat.lt_irrefl _)
      · intro i u v w hi hl
        have hlt : i < es₁.length := Nat.lt_of_add_lt_add_left hl
        rw [List.getElem?_append_left hlt] at hi
        exact hH u v w (List.mem_of_getElem? hi)
    · refine ⟨fun i => st.edges.length + es₁.length ≤ i, ?_, ?_⟩
      · simp only [eval, Xor, h₁.iff, h₂.iff]
        refine .inr ⟨⟨fun i _ => Nat.le_add_right _ _, hc⟩, fun hb => ?_⟩
        have := hb.1 0 hpos₁
        omega
      · intro i u v w hi hl
        rw [List.getElem?_append_right (Nat.le_of_add_le_add_left hl)] at hi
        exact hH u v w (List.mem_of_getElem? hi)

/-- An encoding step: it multiplies the condition on the allowed edges by `P`. -/
structure Encodes (step : Solver → Solver) (β : Nat → Nat) (P : Rel → Prop) : Prop where
  keeps : ∀ {st}, Scoped st → Scoped (step st)
  within : ∀ {st}, Scoped st → ∀ H, Within (step st) H β ↔ Within st H β ∧ P H
  bvs : ∀ st, (step st).bvs = st.bvs

theorem Encodes.comp {f g : Solver → Solver} {β : Nat → Nat} {P Q : Rel → Prop}
    (hf : Encodes f β P) (hg : Encodes g β Q) :
    Encodes (fun st => g (f st)) β (fun H => P H ∧ Q H) where
  keeps hs := hg.keeps (hf.keeps hs)
  within hs H := by rw [hg.within (hf.keeps hs), hf.within hs, and_assoc]
  bvs st := (hg.bvs _).trans (hf.bvs st)

/-- A loop of encoding steps. -/
theorem Encodes.foldl {α : Type} {step : Solver → α → Solver} {β : Nat → Nat} {P : α → Rel → Prop}
    {l : List α} (h : ∀ a ∈ l, Encodes (fun st => step st a) β (P a)) :
    Encodes (fun st => l.foldl step st) β (fun H => ∀ a ∈ l, P a H) := by
  induction l with
  | nil => exact ⟨fun hs => hs, fun _ H => by simp, fun _ => rfl⟩
  | cons a l ih =>
    have hc := (h a List.mem_cons_self).comp (ih (fun b hb => h b (List.mem_cons_of_mem a hb)))
    exact ⟨hc.keeps, fun hs H => by simpa using hc.within hs H, hc.bvs⟩

theorem encodes_addNode (β : Nat → Nat) : Encodes (fun st => st.addNode.2) β (fun _ => True) :=
  ⟨fun hs => hs, fun _ _ => Iff.symm (and_iff_left trivial), fun _ => rfl⟩

theorem encodes_edge (u v w : Nat) (β : Nat → Nat) :
    Encodes (fun st => extend st [(u, v, w)] (.lit st.edges.length)) β (fun H => H u v w) :=
  ⟨fun hs => scoped_extend hs ⟨le_refl _, Nat.lt_succ_self _⟩, fun hs H => within_edge hs u v w H β,
    fun _ => rfl⟩

theorem encodes_bv {f : Formula} (hf : f.Over 0 0) (β : Nat → Nat) :
    Encodes (fun st => st.assert f) β
      (fun _ => eval (fun _ _ _ => False) (fun _ => False) β f) where
  keeps {st} hs := by
    have h := @scoped_extend st hs [] f (hf.mono' st.edges.length _)
    simpa [extend, Solver.assert] using h
  within {st} hs H := by
    have h := within_bv hs hf H β
    have hf' : eval H (fun _ => False) β f ↔ eval (fun _ _ _ => False) (fun _ => False) β f :=
      eval_congr hf (fun i _ hi => absurd hi (Nat.not_lt_zero i))
    rw [hf'] at h
    simpa [extend, Solver.assert] using h
  bvs _ := rfl

/-- Fresh edges in two batches under an exclusive disjunction. -/
theorem encodes_xor (es₁ es₂ : List (Nat × Nat × Nat)) (hn₁ : es₁ ≠ []) (hn₂ : es₂ ≠ [])
    {f₁ f₂ : Nat → Formula} {c₁ c₂ : Prop} {β : Nat → Nat}
    (h₁ : ∀ m, Demands (f₁ m) m es₁.length β c₁) (h₂ : ∀ m, Demands (f₂ m) m es₂.length β c₂) :
    Encodes (fun st => extend st (es₁ ++ es₂)
        (.xor (f₁ st.edges.length) (f₂ (st.edges.length + es₁.length)))) β
      (fun H => ((∀ u v w, (u, v, w) ∈ es₁ → H u v w) ∧ c₁) ∨
        ((∀ u v w, (u, v, w) ∈ es₂ → H u v w) ∧ c₂)) where
  keeps {st} hs := by
    apply scoped_extend hs
    rw [List.length_append, ← Nat.add_assoc]
    exact ⟨(h₁ _).bounded.mono (le_refl _) (Nat.le_add_right _ _),
      (h₂ _).bounded.mono (Nat.le_add_right _ _) (le_refl _)⟩
  within hs H := within_xor hs hn₁ hn₂ (h₁ _) (h₂ _) H
  bvs _ := rfl

/-- A batch of edges receives consecutive literals. -/
theorem addEdges_eq (st : Solver) (es : List (Nat × Nat × Nat)) :
    st.addEdges es =
      (List.range' st.edges.length es.length, { st with edges := st.edges ++ es }) := by
  induction es generalizing st with
  | nil => simp [Solver.addEdges]
  | cons e es ih =>
    obtain ⟨u, v, w⟩ := e
    simp [Solver.addEdges, Solver.addEdge, ih, List.range'_succ]

/-- A statement about the graph that survives the removal of true edges. -/
def Antitone (g : Formula) : Prop :=
  ∀ {A A' : Rel} {L L' : Nat → Prop} {β : Nat → Nat}, (∀ u v w, A u v w → A' u v w) →
    eval A' L' β g → eval A L β g

theorem antitone_acyclic : Antitone .acyclic :=
  fun h ha => ha.mono (fun _ _ ⟨w, hw⟩ => ⟨w, h _ _ w hw⟩)

/-- Two distances are not both short. -/
theorem antitone_distances (u v d x y e : Nat) :
    Antitone (.neg (.conj (.distanceLeq u v d) (.distanceLeq x y e))) := by
  intro A A' L L' β h hn ⟨⟨w, hw, p⟩, ⟨z, hz, q⟩⟩
  exact hn ⟨⟨w, hw, p.mono h⟩, ⟨z, hz, q.mono h⟩⟩

/-- Satisfiability of a complete encoding: choose the bit-vectors and the
allowed edges, then check the graph statements on the allowed edges. -/
theorem satisfiable_iff {st : Solver} (hs : Scoped st) (gs : List Formula)
    (hg : ∀ g ∈ gs, Antitone g) :
    Satisfiable { st with asserts := st.asserts ++ gs } ↔
      ∃ β, InWidth st β ∧ ∃ H, Within st H β ∧ ∀ g ∈ gs, eval H (fun _ => False) β g := by
  constructor
  · rintro ⟨L, β, hw, hL⟩
    refine ⟨β, hw, Active st.edges L, ⟨L, ?_, fun _ _ _ h => h⟩, ?_⟩
    · exact fun f hf => hL f (List.mem_append_left _ hf)
    · exact fun g hm => hg g hm (fun _ _ _ h => h) (hL g (List.mem_append_right _ hm))
  · rintro ⟨β, hw, H, ⟨L, hL, hH⟩, hgs⟩
    refine ⟨L, β, hw, ?_⟩
    intro f hf
    rcases List.mem_append.mp hf with hf | hf
    · exact (eval_congr (hs f hf) (fun _ _ _ => Iff.rfl)).mp (hL f hf)
    · exact hg f hf hH (hgs f hf)

end GraphSat
