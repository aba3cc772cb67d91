import Mathlib.Data.List.Basic
import Mathlib.Logic.Relation

/-!
# Interleavings of labelled sequences

The members of a list belong to sequences, told by a label. Two lists that
interleave the same sequences are led into one another by exchanges of neighbours
from different sequences, so that what no exchange changes depends on the sequences
only.
-/
namespace Interleaving

variable {α β : Type} {f : α → β}

/-- Two neighbours with different labels change places. -/
inductive Exchange (f : α → β) : List α → List α → Prop
  | swap {l r : List α} {a b : α} : f a ≠ f b → Exchange f (l ++ a :: b :: r) (l ++ b :: a :: r)

theorem Exchange.cons {l l' : List α} (x : α) (h : Exchange f l l') :
    Exchange f (x :: l) (x :: l') := by
  cases h with
  | @swap l r a b hne => exact .swap (l := x :: l) hne

theorem exchanges_cons {l l' : List α} (x : α) (h : Relation.ReflTransGen (Exchange f) l l') :
    Relation.ReflTransGen (Exchange f) (x :: l) (x :: l') := by
  induction h with
  | refl => exact .refl
  | tail _ hstep ih => exact ih.tail (hstep.cons x)

/-- A member passes those of other sequences. -/
theorem exchanges_front {l r : List α} {a : α} (h : ∀ x ∈ l, f x ≠ f a) :
    Relation.ReflTransGen (Exchange f) (l ++ a :: r) (a :: (l ++ r)) := by
  induction l with
  | nil => exact .refl
  | cons x l ih =>
    have ih := exchanges_cons x (ih fun y hy => h y (List.mem_cons_of_mem x hy))
    exact ih.tail (.swap (l := []) (h x List.mem_cons_self))

variable [DecidableEq β]

/-- The members with one label, in their order. -/
def sequenceOf (f : α → β) (t : β) (l : List α) : List α := l.filter fun a => f a = t

theorem sequenceOf_append (t : β) (l l' : List α) :
    sequenceOf f t (l ++ l') = sequenceOf f t l ++ sequenceOf f t l' :=
  List.filter_append l l'

theorem sequenceOf_other {l : List α} {t : β} (h : ∀ x ∈ l, f x ≠ t) : sequenceOf f t l = [] := by
  apply List.filter_eq_nil_iff.mpr
  intro x hx ht
  exact h x hx (of_decide_eq_true ht)

theorem sequenceOf_cons (t : β) (a : α) (l : List α) :
    sequenceOf f t (a :: l) = if f a = t then a :: sequenceOf f t l else sequenceOf f t l := by
  rw [sequenceOf, List.filter_cons]
  by_cases h : f a = t
  · rw [if_pos (decide_eq_true h), if_pos h]
    rfl
  · rw [if_neg (by rwa [decide_eq_true_iff]), if_neg h]
    rfl

/-- Lists with the same sequences are interleavings of one another. -/
theorem exchanges_of_sequences {l l' : List α} (h : ∀ t, sequenceOf f t l = sequenceOf f t l') :
    Relation.ReflTransGen (Exchange f) l l' := by
  induction l' generalizing l with
  | nil =>
    cases l with
    | nil => exact .refl
    | cons a l =>
      have ha := h (f a)
      rw [sequenceOf_cons, if_pos rfl] at ha
      cases ha
  | cons a l' ih =>
    -- the first member of `l'` is the first of its sequence in `l`
    have ha := h (f a)
    rw [sequenceOf_cons, if_pos rfl] at ha
    obtain ⟨l₁, l₂, rfl, hno, _, hrest⟩ := List.filter_eq_cons_iff.mp ha
    have hno : ∀ x ∈ l₁, f x ≠ f a := fun x hx he => hno x hx (decide_eq_true he)
    apply (exchanges_front hno).trans (exchanges_cons a (ih _))
    intro t
    have ht := h t
    rw [sequenceOf_append, sequenceOf_cons, sequenceOf_cons] at ht
    rw [sequenceOf_append]
    by_cases hat : f a = t
    · subst hat
      rw [sequenceOf_other hno]
      exact hrest
    · rwa [if_neg hat, if_neg hat] at ht

/-- What every exchange keeps depends on the sequences only. -/
theorem iff_of_sequences {P : List α → Prop} (hstep : ∀ l l', Exchange f l l' → (P l ↔ P l'))
    {l l' : List α} (h : ∀ t, sequenceOf f t l = sequenceOf f t l') : P l ↔ P l' := by
  have hexchanges := exchanges_of_sequences h
  clear h
  induction hexchanges with
  | refl => exact Iff.rfl
  | tail _ hs ih => exact ih.trans (hstep _ _ hs)

end Interleaving
