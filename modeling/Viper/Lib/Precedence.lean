import Mathlib.Logic.Relation
import Mathlib.Order.Extension.Linear
import Mathlib.Data.Prod.Lex
import Mathlib.Data.Finset.Card
import Mathlib.Tactic.Order

/-!
# Acyclic precedence relations

A precedence relation without a directed cycle is the same thing as one that
some linear order of the whole carrier respects. Finite sets of points are then
numbered by their position in that order.
-/
namespace Precedence

variable {α β : Type}

/-- No directed cycle, self-loops included. -/
def Acyclic (r : α → α → Prop) : Prop := ∀ a, ¬ Relation.TransGen r a a

theorem Acyclic.mono {r q : α → α → Prop} (h : Acyclic q) (hr : ∀ a b, r a b → q a b) :
    Acyclic r := fun a ha => h a (Relation.TransGen.mono hr _ _ ha)

/-- A map into a linear order that respects the steps respects the paths. -/
theorem lt_of_path [LinearOrder β] (f : α → β) {r : α → α → Prop}
    (h : ∀ a b, r a b → f a < f b) {a b : α} (hab : Relation.TransGen r a b) : f a < f b := by
  induction hab with
  | single hr => exact h _ _ hr
  | tail _ hr ih => exact lt_trans ih (h _ _ hr)

/-- A relation respected by a map into a linear order has no cycle. -/
theorem acyclic_of_map [LinearOrder β] (f : α → β) {r : α → α → Prop}
    (h : ∀ a b, r a b → f a < f b) : Acyclic r :=
  fun _ ha => lt_irrefl _ (lt_of_path f h ha)

/-- A map that keeps the steps keeps the cycles. -/
theorem Acyclic.comap {r : α → α → Prop} {q : β → β → Prop} (h : Acyclic q) (f : α → β)
    (hr : ∀ a b, r a b → q (f a) (f b)) : Acyclic r :=
  fun a ha => h (f a) (Relation.TransGen.lift f hr a a ha)

/-- Reachability of an acyclic relation is a partial order. -/
@[reducible] def Acyclic.partialOrder {r : α → α → Prop} (h : Acyclic r) : PartialOrder α where
  le := Relation.ReflTransGen r
  le_refl _ := Relation.ReflTransGen.refl
  le_trans _ _ _ := Relation.ReflTransGen.trans
  le_antisymm a b hab hba := by
    rcases Relation.reflTransGen_iff_eq_or_transGen.mp hab with he | ht
    · exact he.symm
    · exact False.elim (h a (ht.trans_left hba))

/-- The linear extension of reachability. -/
@[reducible] noncomputable def Acyclic.linearOrder {r : α → α → Prop} (h : Acyclic r) :
    LinearOrder α :=
  letI := h.partialOrder
  inferInstanceAs (LinearOrder (LinearExtension α))

theorem Acyclic.linearOrder_lt {r : α → α → Prop} (h : Acyclic r) {a b : α} (hr : r a b) :
    h.linearOrder.lt a b := by
  let := h.partialOrder
  have hle : a ≤ b := Relation.ReflTransGen.single hr
  have hne : a ≠ b := by
    rintro rfl
    exact h a (.single hr)
  exact @lt_of_le_of_ne _ h.linearOrder.toPartialOrder _ _ (toLinearExtension.monotone hle) hne

/-- An acyclic relation extends to a linear order, and only an acyclic one does. -/
theorem acyclic_iff_linearOrder {r : α → α → Prop} :
    Acyclic r ↔ ∃ _ : LinearOrder α, ∀ a b : α, r a b → a < b :=
  ⟨fun h => ⟨h.linearOrder, fun _ _ hr => h.linearOrder_lt hr⟩, fun ⟨_, h⟩ => acyclic_of_map id h⟩

/-- A step back where nothing leads forward closes no cycle. -/
theorem Acyclic.insert {r : α → α → Prop} (h : Acyclic r) {a b : α}
    (hab : ¬ Relation.ReflTransGen r a b) :
    Acyclic (fun x y => r x y ∨ (x = b ∧ y = a)) := by
  have path : ∀ {x y}, Relation.TransGen (fun x y => r x y ∨ (x = b ∧ y = a)) x y →
      Relation.TransGen r x y ∨ (Relation.ReflTransGen r x b ∧ Relation.ReflTransGen r a y) := by
    intro x y hxy
    induction hxy with
    | single hs =>
      rcases hs with hr | ⟨rfl, rfl⟩
      · exact .inl (.single hr)
      · exact .inr ⟨.refl, .refl⟩
    | tail _ hs ih =>
      rcases hs with hr | ⟨rfl, rfl⟩
      · rcases ih with ih | ⟨h₁, h₂⟩
        · exact .inl (ih.tail hr)
        · exact .inr ⟨h₁, h₂.tail hr⟩
      · rcases ih with ih | ⟨h₁, _⟩
        · exact .inr ⟨ih.to_reflTransGen, .refl⟩
        · exact .inr ⟨h₁, .refl⟩
  intro x hx
  rcases path hx with hx | ⟨h₁, h₂⟩
  · exact h x hx
  · exact hab (h₂.trans h₁)

/-- Steps either go up a level, or stay and follow an acyclic relation. -/
theorem acyclic_of_levels (level : α → Nat) (f : α → β) {q : β → β → Prop} (hq : Acyclic q)
    {r : α → α → Prop}
    (h : ∀ a b, r a b → level a < level b ∨ (level a = level b ∧ q (f a) (f b))) :
    Acyclic r := by
  obtain ⟨_, hlt⟩ := acyclic_iff_linearOrder.mp hq
  apply acyclic_of_map (fun a => toLex (level a, f a))
  intro a b hr
  rw [Prod.Lex.toLex_lt_toLex]
  rcases h a b hr with hl | ⟨he, hq⟩
  · exact .inl hl
  · exact .inr ⟨he, hlt _ _ hq⟩

section Rank

variable [LinearOrder α]

/-- Position of a point among the points of a finite set. -/
def rank (s : Finset α) (a : α) : Nat := (s.filter (· < a)).card

theorem rank_lt_rank {s : Finset α} {a b : α} (ha : a ∈ s) (h : a < b) : rank s a < rank s b := by
  apply Finset.card_lt_card
  refine ⟨fun x hx => ?_, fun hsub => ?_⟩
  · simp only [Finset.mem_filter] at hx ⊢
    exact ⟨hx.1, hx.2.trans h⟩
  · have hm := hsub (Finset.mem_filter.mpr ⟨ha, h⟩)
    exact lt_irrefl a (Finset.mem_filter.mp hm).2

theorem rank_lt_card {s : Finset α} {a : α} (ha : a ∈ s) : rank s a < s.card := by
  apply Finset.card_lt_card
  refine ⟨Finset.filter_subset _ s, fun hsub => ?_⟩
  exact lt_irrefl a (Finset.mem_filter.mp (hsub ha)).2

theorem rank_lt_iff {s : Finset α} {a b : α} (ha : a ∈ s) (hb : b ∈ s) :
    rank s a < rank s b ↔ a < b := by
  refine ⟨fun h => ?_, rank_lt_rank ha⟩
  by_contra hn
  rcases lt_or_eq_of_le (not_lt.mp hn) with hlt | he
  · exact lt_asymm h (rank_lt_rank hb hlt)
  · exact lt_irrefl _ (he ▸ h)

theorem rank_inj {s : Finset α} {a b : α} (ha : a ∈ s) (hb : b ∈ s) (h : rank s a = rank s b) :
    a = b := by
  rcases lt_trichotomy a b with hl | he | hg
  · exact absurd h (ne_of_lt (rank_lt_rank ha hl))
  · exact he
  · exact absurd h.symm (ne_of_lt (rank_lt_rank hb hg))

end Rank

end Precedence
