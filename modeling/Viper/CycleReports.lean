import Viper.CycleSearch
import Viper.Lib.SimpleCycles

/-!
# The cycles that `BCGraph.my_detect_cycle` reports

The search follows all simple paths from the begin event of T0 and prints a cycle
whenever it meets its path. It prints every simple cycle of the event graph, and
nothing else.
-/
namespace Viper

open Py Precedence Relation SimpleCycles

namespace BCGraph

variable {G : BCGraph} {o : SetOrder}

/-- The cycles that `my_detect_cycle` prints and counts. -/
def reportedCycles (o : SetOrder) (G : BCGraph) (fuel : Nat) :
    ExceptT Err Option (List (List Nat)) := do
  let st ← G.dfs o fuel 1 ⟨List.replicate (G.nNodes + 1) false, [], []⟩
  fueled (.ok st.cycles)

theorem myDetectCycle_eq (o : SetOrder) (G : BCGraph) (fuel : Nat) :
    G.myDetectCycle o fuel = (do
      let cycles ← G.reportedCycles o fuel
      fueled (.ok (decide (0 < cycles.length)))) := by
  rw [myDetectCycle, reportedCycles, bind_assoc]
  simp only [fueled_ok_bind]

/-- The successors are searched one after the other, and each adds its cycles. -/
theorem recordAll (f : DfsState → Nat → ExceptT Err Option DfsState) (st : DfsState)
    {P : Nat → List Nat → Prop} {vs : List Nat} (hf : ∀ v ∈ vs, ∀ cycles, ∃ cycles',
      f { st with cycles := cycles } v = fueled (.ok { st with cycles := cycles' }) ∧
        ∀ c, c ∈ cycles' ↔ c ∈ cycles ∨ P v c) (cycles : List (List Nat)) :
    ∃ cycles', vs.foldlM f { st with cycles := cycles } =
      fueled (.ok { st with cycles := cycles' }) ∧
      ∀ c, c ∈ cycles' ↔ c ∈ cycles ∨ ∃ v ∈ vs, P v c := by
  induction vs generalizing cycles with
  | nil => exact ⟨cycles, rfl, by simp⟩
  | cons v vs ih =>
    obtain ⟨cycles₁, h₁, hc₁⟩ := hf v List.mem_cons_self cycles
    obtain ⟨cycles₂, h₂, hc₂⟩ := ih (fun w hw => hf w (List.mem_cons_of_mem v hw)) cycles₁
    refine ⟨cycles₂, by rw [List.foldlM_cons, h₁, fueled_ok_bind, h₂], ?_⟩
    intro c
    rw [hc₂, hc₁, or_assoc, List.exists_mem_cons_iff]

/-- Meeting the path. -/
theorem dfs_hit (fuel : Nat) {u : Nat} {st : DfsState} (h : G.OnPath st) (hu : u ∈ st.path) :
    G.dfs o (fuel + 1) u st = fueled
      (.ok { st with cycles := st.cycles.insert (st.path.drop (st.path.idxOf u)) }) := by
  have hvis : st.visited[u]? = some true := (h.marked u).mpr hu
  have hidx : st.path.idxOf? u = some (st.path.idxOf u) := by
    rw [List.idxOf_eq_getD_idxOf?]
    cases hi : st.path.idxOf? u with
    | none => exact absurd hu (List.idxOf?_eq_none_iff.mp hi)
    | some i => rfl
  simp only [dfs, hvis, hidx]

/-- The recursion is on the events that are not on the path. It restores the path
and adds the cycles that are recorded from there. -/
theorem dfs_records (hG : G.Closed) (fuel : Nat) : ∀ u st, u ∈ G.nodes → G.OnPath st →
    G.nNodes - st.path.length < fuel →
    ∃ cycles, G.dfs o fuel u st = fueled (.ok { st with cycles := cycles }) ∧
      ∀ c, c ∈ cycles ↔ c ∈ st.cycles ∨ Records G.Arc st.path u c := by
  induction fuel with
  | zero =>
    intro u st _ _ hf
    omega
  | succ fuel ih =>
    intro u st hu h hf
    by_cases hp : u ∈ st.path
    · refine ⟨_, dfs_hit fuel h hp, ?_⟩
      intro c
      rw [List.mem_insert_iff, records_of_mem hp, or_comm]
    · have hvis := h.unvisited hu hp
      have hpush := h.push hu hp
      have hle := hpush.length_le
      rw [List.length_append, List.length_singleton] at hle
      have hnext : ∀ v ∈ o.iter (G.edges u), ∀ cycles, ∃ cycles',
          G.dfs o fuel v ⟨st.visited.set u true, st.path ++ [u], cycles⟩ =
            fueled (.ok ⟨st.visited.set u true, st.path ++ [u], cycles'⟩) ∧
          ∀ c, c ∈ cycles' ↔ c ∈ cycles ∨ Records G.Arc (st.path ++ [u]) v c := by
        intro v hv cycles
        apply ih v _ (hG.mem u v ((SetOrder.mem_iter o _ v).mp hv)) (hpush.cycles cycles)
        rw [List.length_append, List.length_singleton]
        omega
      obtain ⟨cycles, hrun, hc⟩ := recordAll (fun st v => G.dfs o fuel v st)
        ⟨st.visited.set u true, st.path ++ [u], st.cycles⟩ hnext st.cycles
      have hback := set_back hvis
      refine ⟨cycles, ?_, ?_⟩
      · simp only [dfs, hvis, successors_of_mem hu, fueled_ok_bind, hrun, hback,
          List.dropLast_concat]
      · intro c
        rw [hc, records_of_not_mem hp]
        simp only [SetOrder.mem_iter]

theorem reportedCycles_spec (o : SetOrder) (hG : G.Closed) (h1 : 1 ∈ G.nodes)
    (hr : ∀ w, TransGen G.Arc w w → ReflTransGen G.Arc 1 w) {fuel : Nat} (hf : G.nNodes < fuel) :
    ∃ cycles, G.reportedCycles o fuel = fueled (.ok cycles) ∧
      ∀ c : Cycle Nat, (∃ l ∈ cycles, (l : Cycle Nat) = c) ↔
      c ≠ Cycle.nil ∧ c.Nodup ∧ c.Chain G.Arc := by
  have hstart : G.OnPath ⟨List.replicate (G.nNodes + 1) false, [], []⟩ := by
    refine ⟨List.length_replicate, ?_, List.nodup_nil, fun v hv => absurd hv List.not_mem_nil⟩
    intro v
    simp [List.getElem?_replicate]
  obtain ⟨cycles, hrun, hc⟩ := dfs_records (o := o) hG fuel 1 _ h1 hstart (by simpa using hf)
  refine ⟨cycles, by simp only [reportedCycles, hrun, fueled_ok_bind], ?_⟩
  intro c
  rw [← records_iff hr c]
  simp [hc]

end BCGraph

namespace ArgumentedPolyGraph

variable {κ : Type} {g : ArgumentedPolyGraph κ}

/-- With T0 before every other transaction, the reported cycles are, up to rotation,
the simple cycles of the known events. -/
theorem reportedCycles_iff (o : SetOrder) (hg : g.EdgesInRange) (h0 : 0 < g.nNodes)
    (hT0 : ∀ i, 0 < i → i < g.nNodes → ∃ type, type ≠ .rw ∧ (i, type) ∈ g.edges 0) :
    ∃ G, g.toBCGraph o = .ok G ∧ ∃ enough, ∀ fuel, enough ≤ fuel →
      ∃ cycles, G.reportedCycles o fuel = fueled (.ok cycles) ∧
        ∀ c : Cycle Nat, (∃ l ∈ cycles, (l : Cycle Nat) = c) ↔
        c ≠ Cycle.nil ∧ c.Nodup ∧ c.Chain fun u v => v ∈ G.edges u := by
  obtain ⟨G, hG, hs⟩ := toBCGraph_spec o hg
  have hc := hg.closed hs
  have h1 : 1 ∈ G.nodes := by
    rw [BCGraph.mem_nodes, hs.nNodes]
    omega
  refine ⟨G, hG, G.nNodes + 1, ?_⟩
  intro fuel hf
  apply BCGraph.reportedCycles_spec o hc h1 _ hf
  intro w hw
  obtain ⟨v, _, hv⟩ := TransGen.tail'_iff.mp hw
  exact reaches_all hs h0 hT0 (hc.mem v w hv)

theorem reportedCycles_iff_circular :
    ∃ G, circular.toBCGraph .stored = .ok G ∧ ∃ enough, ∀ fuel, enough ≤ fuel →
      ∃ cycles, G.reportedCycles .stored fuel = fueled (.ok cycles) ∧
        ∀ c : Cycle Nat, (∃ l ∈ cycles, (l : Cycle Nat) = c) ↔
          c ≠ Cycle.nil ∧ c.Nodup ∧ c.Chain fun u v => v ∈ G.edges u :=
  reportedCycles_iff .stored circular_edgesInRange (by decide) circular_initial

/-- Two cycles through one event. -/
example : BCGraph.reportedCycles .stored
    ⟨4, fun u => if u = 1 then [2] else if u = 2 then [3, 4] else if u = 3 then [2]
    else if u = 4 then [2] else []⟩ 5 = fueled (.ok [[2, 4], [2, 3]]) := rfl

end ArgumentedPolyGraph

end Viper
