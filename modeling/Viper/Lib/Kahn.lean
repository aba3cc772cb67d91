import Viper.Lib.Precedence
import Mathlib.Data.List.Count
import Mathlib.Data.List.Infix
import Mathlib.Data.List.Perm.Subperm
import Mathlib.Data.Finset.Max

/-!
# Sorting a graph by its pending predecessors

A node is ready when all its predecessors are done. Repeatedly moving a ready
node to the end of the sorted nodes keeps one invariant; when nothing is left to
move, the nodes are sorted completely exactly if the graph has no cycle.
-/
namespace Kahn

open Precedence

variable {α : Type} [DecidableEq α] (nodes : List α) (succ : α → List α)

/-- The predecessors of a node that are not done. -/
def pending (done : List α) (v : α) : Nat :=
  nodes.countP (fun u => (succ u).contains v && !done.contains u)

/-- The edges between nodes. -/
def Arc (u v : α) : Prop := u ∈ nodes ∧ v ∈ nodes ∧ v ∈ succ u

/-- Sorted nodes and a queue of the nodes that are ready. -/
structure Inv (done queue : List α) : Prop where
  nodup : (done ++ queue).Nodup
  mem : ∀ v ∈ done ++ queue, v ∈ nodes
  ready : ∀ v ∈ nodes, v ∈ done ++ queue ↔ pending nodes succ done v = 0
  sorted : ∀ l₁ v l₂, done = l₁ ++ v :: l₂ → ∀ u, Arc nodes succ u v → u ∈ l₁

variable {nodes succ}

theorem pending_eq_zero {done : List α} {v : α} :
    pending nodes succ done v = 0 ↔ ∀ u ∈ nodes, v ∈ succ u → u ∈ done := by
  simp only [pending, List.countP_eq_zero, Bool.and_eq_true, List.contains_iff_mem,
    Bool.not_eq_eq_eq_not, Bool.not_true]
  refine forall_congr' fun u => imp_congr_right fun _ => ?_
  by_cases hd : u ∈ done
  · simp [hd]
  · simp [hd]

/-- Doing one more node takes one off for each of its successors. -/
theorem pending_snoc (hn : nodes.Nodup) {done : List α} {u : α} (hu : u ∈ nodes)
    (hd : u ∉ done) (v : α) :
    pending nodes succ done v = pending nodes succ (done ++ [u]) v + if v ∈ succ u
      then 1 else 0 := by
  obtain ⟨l₁, l₂, rfl⟩ := List.append_of_mem hu
  have hnot : ∀ x ∈ l₁ ++ l₂, x ≠ u := by
    intro x hx he
    rw [List.nodup_middle, List.nodup_cons] at hn
    exact hn.1 (he ▸ hx)
  have hsame : ∀ l : List α, (∀ x ∈ l, x ≠ u) →
      l.countP (fun x => (succ x).contains v && !(done ++ [u]).contains x) =
        l.countP (fun x => (succ x).contains v && !done.contains x) := by
    intro l hl
    refine List.countP_congr (fun x hx => ?_)
    simp [hl x hx]
  rw [pending, pending, List.countP_append, List.countP_append, List.countP_cons, List.countP_cons,
    hsame l₁ (fun x hx => hnot x (List.mem_append_left _ hx)),
    hsame l₂ (fun x hx => hnot x (List.mem_append_right _ hx))]
  by_cases hv : v ∈ succ u
  · simp [hv, hd]
    omega
  · simp [hv]

/-- All nodes without predecessors are ready at first. -/
theorem inv_start (hn : nodes.Nodup) :
    Inv nodes succ [] (nodes.filter fun v => pending nodes succ [] v = 0) where
  nodup := by
    rw [List.nil_append]
    exact hn.filter _
  mem v hv := (List.mem_filter.mp hv).1
  ready v hv := by simp [hv]
  sorted l₁ v l₂ h := by simp at h

section Step

variable {done queue : List α} {u : α} (hn : nodes.Nodup) (h : Inv nodes succ done (u :: queue))
include h

theorem Inv.not_mem : u ∉ done := by
  have hd := h.nodup
  rw [List.nodup_middle, List.nodup_cons] at hd
  exact fun hm => hd.1 (List.mem_append_left _ hm)

include hn

/-- One step: the successors without other predecessors join the queue. -/
theorem Inv.step {fresh : List α} (hnd : fresh.Nodup)
    (hf : ∀ v, v ∈ fresh ↔ v ∈ nodes ∧ v ∈ succ u ∧ pending nodes succ (done ++ [u]) v = 0) :
    Inv nodes succ (done ++ [u]) (queue ++ fresh) := by
  have hu : u ∈ nodes := h.mem u (by simp)
  have hd : u ∉ done := h.not_mem
  have hcount : ∀ v, pending nodes succ done v = pending nodes succ (done ++ [u]) v + if v ∈ succ u
    then 1 else 0 :=
    pending_snoc hn hu hd
  have hassoc : done ++ [u] ++ (queue ++ fresh) = (done ++ u :: queue) ++ fresh := by simp
  refine ⟨?_, ?_, ?_, ?_⟩
  · rw [hassoc, List.nodup_append]
    refine ⟨h.nodup, hnd, fun a ha b hb he => ?_⟩
    subst he
    obtain ⟨hm, hs, _⟩ := (hf a).mp hb
    have hzero := (h.ready a hm).mp ha
    rw [hcount a, if_pos hs] at hzero
    omega
  · intro v hv
    rw [hassoc] at hv
    rcases List.mem_append.mp hv with hv | hv
    · exact h.mem v hv
    · exact ((hf v).mp hv).1
  · intro v hv
    rw [hassoc, List.mem_append, h.ready v hv, hf, hcount v]
    by_cases hs : v ∈ succ u
    · simp [hs, hv]
    · simp [hs]
  · intro l₁ v l₂ he x hx
    rcases List.eq_nil_or_concat l₂ with rfl | ⟨l, z, rfl⟩
    · obtain ⟨rfl, hv⟩ := List.append_inj' he rfl
      cases hv
      exact pending_eq_zero.mp ((h.ready u hu).mp (by simp)) x hx.1 hx.2.2
    · have he' : done ++ [u] = (l₁ ++ v :: l) ++ [z] := by simpa using he
      obtain ⟨rfl, _⟩ := List.append_inj' he' rfl
      exact h.sorted l₁ v l rfl x hx

end Step

section Finish

variable {done : List α} (hn : nodes.Nodup) (h : Inv nodes succ done [])
include hn h

theorem Inv.length_iff : done.length = nodes.length ↔ ∀ v ∈ nodes, v ∈ done := by
  have hnd : done.Nodup := by simpa using h.nodup
  have hsub : done ⊆ nodes := fun v hv => h.mem v (by simpa using hv)
  constructor
  · intro hl v hv
    exact ((hnd.subperm hsub).perm_of_length_le (by omega)).mem_iff.mpr hv
  · intro hall
    exact Nat.le_antisymm (hnd.subperm hsub).length_le (hn.subperm hall).length_le

/-- Nothing is left over exactly if the graph has no cycle. -/
theorem Inv.complete_iff : done.length = nodes.length ↔ Acyclic (Arc nodes succ) := by
  rw [h.length_iff hn]
  constructor
  · intro hall
    have hnd : done.Nodup := by simpa using h.nodup
    refine acyclic_of_map (fun a => done.idxOf a) (fun u v huv => ?_)
    obtain ⟨l₁, l₂, he⟩ := List.append_of_mem (hall v huv.2.1)
    have hu := h.sorted l₁ v l₂ he u huv
    have hv : v ∉ l₁ := by
      rw [he, List.nodup_append] at hnd
      exact fun hm => hnd.2.2 v hm v List.mem_cons_self rfl
    rw [he, List.idxOf_append_of_mem hu, List.idxOf_append_of_notMem hv]
    have := List.idxOf_lt_length_of_mem hu
    omega
  · intro ha
    by_contra hno
    simp only [not_forall] at hno
    obtain ⟨v, hv, hvd⟩ := hno
    obtain ⟨lo, hlt⟩ := acyclic_iff_linearOrder.mp ha
    -- the least node that is left over has a predecessor that is left over
    obtain ⟨m, hm, hmin⟩ :=
      Finset.exists_min_image (nodes.toFinset.filter (· ∉ done)) id ⟨v, by simp [hv, hvd]⟩
    simp only [Finset.mem_filter, List.mem_toFinset] at hm hmin
    have hpending : ¬ pending nodes succ done m = 0 := by
      rw [← h.ready m hm.1, List.append_nil]
      exact hm.2
    rw [pending_eq_zero] at hpending
    simp only [not_forall] at hpending
    obtain ⟨u, hu, hs, hud⟩ := hpending
    exact absurd (hmin u ⟨hu, hud⟩) (not_le.mpr (hlt u m ⟨hu, hm.1, hs⟩))

end Finish

end Kahn
