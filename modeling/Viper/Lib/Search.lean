import Viper.Lib.Precedence

/-!
# Searching a graph for a cycle

Two ways to find one. A search that keeps the path it came along finds a cycle
when it meets that path again. A search that finishes nodes for good knows that
no finished node lies on a cycle: all successors were finished before.
-/
namespace Search

open Precedence Relation

variable {α : Type} {r : α → α → Prop}

/-- From a node, the search meets the path behind it or its own continuation. -/
inductive Finds (r : α → α → Prop) : List α → α → Prop where
  | hit {path : List α} {u : α} : u ∈ path → Finds r path u
  | step {path : List α} {u v : α} : u ∉ path → r u v → Finds r (path ++ [u]) v → Finds r path u

/-- The path leads to the current node, so meeting it closes a cycle. -/
theorem Finds.cycle {path : List α} {u : α} (h : Finds r path u) (hp : ∀ p ∈ path, TransGen r p u) :
    ∃ w, TransGen r w w := by
  induction h with
  | hit hu => exact ⟨_, hp _ hu⟩
  | step _ huv _ ih =>
    apply ih
    intro p hm
    rcases List.mem_append.mp hm with hm | hm
    · exact (hp p hm).tail huv
    · rw [List.mem_singleton.mp hm]
      exact .single huv

/-- A path node that can be reached is met. -/
theorem finds_of_mem {u w : α} (h : ReflTransGen r u w) (path : List α) (hw : w ∈ path) :
    Finds r path u := by
  induction h using ReflTransGen.head_induction_on generalizing path with
  | refl => exact .hit hw
  | @head u v huv _ ih =>
    by_cases hu : u ∈ path
    · exact .hit hu
    · exact .step hu huv (ih _ (List.mem_append_left _ hw))

/-- A cycle that can be reached is found. -/
theorem finds_of_cycle {u w : α} (h : ReflTransGen r u w) (hw : TransGen r w w) (path : List α) :
    Finds r path u := by
  induction h using ReflTransGen.head_induction_on generalizing path with
  | refl =>
    by_cases hm : w ∈ path
    · exact .hit hm
    · obtain ⟨v, hwv, hvw⟩ := TransGen.head'_iff.mp hw
      exact .step hm hwv (finds_of_mem hvw _ (by simp))
  | @head u v huv _ ih =>
    by_cases hu : u ∈ path
    · exact .hit hu
    · exact .step hu huv (ih _)

/-- From a node that reaches all cycles, the search decides whether there is one. -/
theorem finds_iff {u : α} (hu : ∀ w, TransGen r w w → ReflTransGen r u w) :
    Finds r [] u ↔ ¬ Acyclic r := by
  constructor
  · intro h ha
    obtain ⟨w, hw⟩ := h.cycle (by simp)
    exact ha w hw
  · intro h
    obtain ⟨w, hw⟩ := not_forall_not.mp h
    exact finds_of_cycle (hu w hw) hw []

/-- Finished nodes. -/
structure Finished (r : α → α → Prop) (done : α → Prop) : Prop where
  closed : ∀ u v, done u → r u v → done v
  acyclic : ∀ u, done u → ¬ TransGen r u u

theorem Finished.reaches {done : α → Prop} (h : Finished r done) {u v : α} (hu : done u)
    (huv : ReflTransGen r u v) :
    done v := by
  induction huv with
  | refl => exact hu
  | tail _ hs ih => exact h.closed _ _ ih hs

/-- A node all of whose successors are finished can be finished. -/
theorem Finished.insert {done : α → Prop} (h : Finished r done) {u : α} (hu : ¬ done u)
    (hs : ∀ v, r u v → done v) :
    Finished r (fun x => x = u ∨ done x) where
  closed x y hx hxy := by
    rcases hx with rfl | hx
    · exact .inr (hs y hxy)
    · exact .inr (h.closed x y hx hxy)
  acyclic x hx ht := by
    rcases hx with rfl | hx
    · obtain ⟨v, huv, hvu⟩ := TransGen.head'_iff.mp ht
      exact hu (h.reaches (hs v huv) hvu)
    · exact h.acyclic x hx ht

theorem Finished.congr {done done' : α → Prop} (h : Finished r done) (hd : ∀ u, done' u ↔ done u) :
    Finished r done' where
  closed u v hu huv := (hd v).mpr (h.closed u v ((hd u).mp hu) huv)
  acyclic u hu := h.acyclic u ((hd u).mp hu)

end Search
