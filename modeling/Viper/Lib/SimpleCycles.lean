import Mathlib.Data.List.Cycle
import Mathlib.Logic.Relation

/-!
# The cycles that a backtracking search records

A search that follows all simple paths from a node and records a cycle whenever
it meets the path behind it records every simple cycle it can reach. A cycle is
recorded from the node at which the search enters it, so the results are cycles
up to rotation.
-/
namespace SimpleCycles

open Relation List

variable {α : Type} {r : α → α → Prop}

/-- What is recorded from a node on: where it meets the path, the path from there on. -/
inductive Records (r : α → α → Prop) : List α → α → List α → Prop where
  | hit {path before after : List α} {u : α} : path = before ++ u :: after → u ∉ before →
      Records r path u (u :: after)
  | step {path : List α} {u v : α} {c : List α} : u ∉ path → r u v → Records r (path ++ [u]) v c →
      Records r path u c

/-- On the path there is one cycle to record. -/
theorem records_of_mem [DecidableEq α] {path : List α} {u : α} {c : List α} (hu : u ∈ path) :
    Records r path u c ↔ c = path.drop (path.idxOf u) := by
  have hdrop : ∀ before after, path = before ++ u :: after → u ∉ before →
      path.drop (path.idxOf u) = u :: after := by
    intro before after he hb
    rw [he, idxOf_append_of_notMem hb, idxOf_cons_self, Nat.add_zero, drop_left]
  constructor
  · intro h
    cases h with
    | hit he hb => exact (hdrop _ _ he hb).symm
    | step hn => exact absurd hu hn
  · intro h
    obtain ⟨before, after, he, hb⟩ := eq_append_cons_of_mem hu
    rw [h, hdrop before after he hb]
    exact .hit he hb

/-- Off the path, what the successors record. -/
theorem records_of_not_mem {path : List α} {u : α} {c : List α} (hu : u ∉ path) :
    Records r path u c ↔ ∃ v, r u v ∧ Records r (path ++ [u]) v c := by
  constructor
  · intro h
    cases h with
    | hit he => exact absurd (by rw [he]; simp) hu
    | step _ huv hc => exact ⟨_, huv, hc⟩
  · intro h
    obtain ⟨v, huv, hc⟩ := h
    exact .step hu huv hc

/-- What is recorded is a simple cycle. -/
theorem Records.cycle {path : List α} {u : α} {c : List α} (h : Records r path u c)
    (hn : path.Nodup)
    (hc : (path ++ [u]).IsChain r) : c ≠ [] ∧ c.Nodup ∧ (c : Cycle α).Chain r := by
  induction h with
  | @hit path before after u he _ =>
    subst he
    refine ⟨cons_ne_nil u after, (nodup_append.mp hn).2.1, ?_⟩
    rw [append_assoc] at hc
    exact hc.right_of_append
  | @step path u v c hu huv _ ih =>
    apply ih
    · rw [nodup_append]
      refine ⟨hn, nodup_singleton u, ?_⟩
      intro a ha b hb
      rw [mem_singleton.mp hb]
      exact fun he => hu (he ▸ ha)
    · rw [append_assoc, singleton_append, isChain_append_cons_cons]
      exact ⟨hc, huv, isChain_singleton v⟩

/-- A path into a cycle and around it is followed, the induction is on the rest of the way. -/
theorem records_of_lasso {before after : List α} {x : α} (hn : (before ++ x :: after).Nodup)
    (hc : (before ++ x :: after ++ [x]).IsChain r)
    (rest : List α) : ∀ path u, path ++ rest = before ++ x :: after →
    (rest ++ [x]).head? = some u → Records r path u (x :: after) := by
  induction rest with
  | nil =>
    intro path u hpath hu
    obtain rfl : x = u := Option.some.inj hu
    rw [append_nil] at hpath
    apply Records.hit hpath
    intro hx
    exact (nodup_append.mp hn).2.2 x hx x mem_cons_self rfl
  | cons y rest ih =>
    intro path u hpath hu
    obtain rfl : y = u := Option.some.inj hu
    rw [← hpath] at hn hc
    have hy : y ∉ path := fun hm => (nodup_append.mp hn).2.2 y hm y mem_cons_self rfl
    obtain ⟨v, hv⟩ : ∃ v, (rest ++ [x]).head? = some v := by
      cases rest with
      | nil => exact ⟨x, rfl⟩
      | cons v rest => exact ⟨v, rfl⟩
    have hyv : r y v := by
      rw [append_assoc, cons_append] at hc
      have hc := hc.right_of_append
      cases rest with
      | nil =>
        obtain rfl : x = v := Option.some.inj hv
        exact (isChain_cons_cons.mp hc).1
      | cons w rest =>
        obtain rfl : w = v := Option.some.inj hv
        exact (isChain_cons_cons.mp hc).1
    refine .step hy hyv (ih (path ++ [y]) v ?_ hv)
    rw [append_assoc, singleton_append, hpath]

/-- The first node of a set on a way, and a simple path to it outside the set. -/
theorem exists_approach {u x : α} {c : List α} (h : ReflTransGen r u x) (hx : x ∈ c) :
    ∃ before y, y ∈ c ∧ (before ++ [y]).head? = some u ∧ (before ++ [y]).IsChain r ∧ before.Nodup ∧
      ∀ z ∈ before, z ∉ c := by
  induction h using ReflTransGen.head_induction_on with
  | refl =>
    exact ⟨[], x, hx, rfl, isChain_singleton x, nodup_nil, fun z hz => absurd hz not_mem_nil⟩
  | @head u v huv _ ih =>
    by_cases hu : u ∈ c
    · exact ⟨[], u, hu, rfl, isChain_singleton u, nodup_nil, fun z hz => absurd hz not_mem_nil⟩
    · obtain ⟨before, y, hy, hhead, hchain, hn, hout⟩ := ih
      by_cases hm : u ∈ before
      · -- the way comes back to `u`: the detour is left out
        obtain ⟨detour, rest, rfl⟩ := append_of_mem hm
        rw [append_assoc] at hchain
        refine ⟨u :: rest, y, hy, rfl, hchain.right_of_append, (nodup_append.mp hn).2.1, ?_⟩
        intro z hz
        exact hout z (mem_append_right detour hz)
      · refine ⟨u :: before, y, hy, rfl, ?_, nodup_cons.mpr ⟨hm, hn⟩, ?_⟩
        · cases before with
          | nil =>
            obtain rfl : y = v := Option.some.inj hhead
            exact isChain_cons_cons.mpr ⟨huv, hchain⟩
          | cons w before =>
            obtain rfl : w = v := Option.some.inj hhead
            exact isChain_cons_cons.mpr ⟨huv, hchain⟩
        · intro z hz
          cases mem_cons.mp hz with
          | inl he =>
            rw [he]
            exact hu
          | inr hz => exact hout z hz

/-- Every simple cycle within reach is recorded, from some node of it on. -/
theorem exists_records {u : α} {c : Cycle α} (hne : c ≠ Cycle.nil) (hn : c.Nodup) (hc : c.Chain r)
    (hu : ∀ x ∈ c, ReflTransGen r u x) : ∃ l : List α, Records r [] u l ∧ (l : Cycle α) = c := by
  induction c using Quotient.inductionOn' with
  | h l =>
    cases l with
    | nil => exact absurd rfl hne
    | cons x l =>
      have hx : x ∈ x :: l := mem_cons_self
      obtain ⟨before, y, hy, hhead, hchain, hnb, hout⟩ := exists_approach (hu x hx) hx
      obtain ⟨first, last, hl⟩ := append_of_mem hy
      -- the cycle, from `y` on
      have hsame : ((y :: (last ++ first) : List α) : Cycle α) = ((x :: l : List α) : Cycle α) := by
        rw [hl, Cycle.coe_eq_coe, ← cons_append]
        exact isRotated_append
      have hmem : ∀ z, z ∈ y :: (last ++ first) → z ∈ x :: l := by
        intro z hz
        rw [hl]
        simp only [mem_cons, mem_append] at hz ⊢
        tauto
      have hround : (y :: (last ++ first) ++ [y]).IsChain r := by
        have hc : Cycle.Chain r ((x :: l : List α) : Cycle α) := hc
        rw [← hsame] at hc
        exact hc
      have hnodup : (y :: (last ++ first)).Nodup := by
        have hn : Cycle.Nodup ((x :: l : List α) : Cycle α) := hn
        rw [← hsame] at hn
        exact hn
      have hlasso : (before ++ y :: (last ++ first)).Nodup := by
        rw [nodup_append]
        refine ⟨hnb, hnodup, ?_⟩
        intro a ha b hb he
        exact hout a ha (hmem a (he ▸ hb))
      have hway : (before ++ y :: (last ++ first) ++ [y]).IsChain r := by
        rw [append_assoc, cons_append]
        exact isChain_split.mpr ⟨hchain, hround⟩
      refine ⟨y :: (last ++ first), ?_, hsame⟩
      apply records_of_lasso hlasso hway (before ++ y :: (last ++ first)) [] u (nil_append _)
      cases before with
      | nil => exact hhead
      | cons w before => exact hhead

/-- From a node that reaches all cycles, exactly the simple cycles are recorded. -/
theorem records_iff {u : α} (hu : ∀ x, TransGen r x x → ReflTransGen r u x) (c : Cycle α) :
    (∃ l : List α, Records r [] u l ∧ (l : Cycle α) = c) ↔ c ≠ Cycle.nil ∧ c.Nodup ∧ c.Chain r := by
  constructor
  · intro h
    obtain ⟨l, hl, rfl⟩ := h
    obtain ⟨hne, hn, hc⟩ := hl.cycle nodup_nil (isChain_singleton u)
    exact ⟨fun he => hne ((Cycle.coe_eq_nil l).mp he), hn, hc⟩
  · intro h
    obtain ⟨hne, hn, hc⟩ := h
    apply exists_records hne hn hc
    intro x hx
    apply hu
    -- around the cycle, every node reaches itself
    have hall : ∀ a ∈ c, ∀ b ∈ c, TransGen r a b :=
      Cycle.chain_iff_pairwise.mp (hc.imp fun _ _ hab => TransGen.single hab)
    exact hall x hx x hx

end SimpleCycles
