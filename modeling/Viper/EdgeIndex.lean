import Viper.TopoSort

/-!
# Duplicate edges (`ArgumentedPolyGraph.add_edge`, `add_edges`)

Of the three types that say commit before begin, only the first one asked for
between two transactions is stored. The order of the calls decides which one it
is; the events that are ordered, and the agreement of the two indices, do not
depend on it.
-/
namespace Viper

open Py

/-- Edges that order the same events lead between the same transactions. -/
theorem Edge.ends_of_before {e f : Edge} (h : e.before = f.before) :
    e.src = f.src ∧ e.dst = f.dst := by
  rw [← e.idx_src, ← f.idx_src, ← e.idx_dst, ← f.idx_dst, h]
  exact ⟨rfl, rfl⟩

namespace ArgumentedPolyGraph

variable {κ : Type}

section Definitions

/-- A call that adds edges. -/
inductive EdgeCall where
  | addEdge (src dst : Nat) (type : EdgeType)
  | addEdges (srcList dstList : List Nat) (type : EdgeType)
  deriving DecidableEq, Repr

/-- The edges a call asks for. -/
def EdgeCall.edges : EdgeCall → List Edge
  | .addEdge src dst type => [⟨src, dst, type⟩]
  | .addEdges srcList dstList type =>
    srcList.flatMap fun src => dstList.map fun dst => ⟨src, dst, type⟩

def callEdges (G : ArgumentedPolyGraph κ) : EdgeCall → Except Err (ArgumentedPolyGraph κ)
  | .addEdge src dst type => G.addEdge src dst type
  | .addEdges srcList dstList type => G.addEdges srcList dstList type

/-- The graph after a sequence of calls. -/
def addCalls (n : Nat) (calls : List EdgeCall) : Except Err (ArgumentedPolyGraph κ) :=
  calls.foldlM callEdges (init n)

/-- Distinct nodes of the graph, the second not T0. -/
def Proper (n : Nat) (e : Edge) : Prop := e.src ≠ e.dst ∧ e.dst ≠ 0 ∧ e.src < n ∧ e.dst < n

instance (n : Nat) (e : Edge) : Decidable (Proper n e) :=
  inferInstanceAs (Decidable (e.src ≠ e.dst ∧ e.dst ≠ 0 ∧ e.src < n ∧ e.dst < n))

/-- One type that says commit before begin between two transactions, and the same
types in both indices. -/
structure InStep (G : ArgumentedPolyGraph κ) : Prop where
  sets : ∀ src, (G.edges src).Nodup
  single : ∀ src dst t t', t ≠ .rw → t' ≠ .rw → (dst, t) ∈ G.edges src →
    (dst, t') ∈ G.edges src → t = t'
  lookup : ∀ src dst types, (G.edgeTypeLookup src).get? dst = some types →
    types.Nodup ∧ types ≠ [] ∧ ∀ t, t ∈ types ↔ (dst, t) ∈ G.edges src
  absent : ∀ src dst, (G.edgeTypeLookup src).get? dst = none → ∀ t, (dst, t) ∉ G.edges src

/-- An edge of the BC graph of the edges asked for: begin to commit of every
transaction, and what the types say. -/
def AskedArc (n : Nat) (asked : Edge → Prop) (u v : Nat) : Prop :=
  (∃ i < n, u = si i ∧ v = ci i) ∨
    (∃ src dst type, type ≠ .rw ∧ asked ⟨src, dst, type⟩ ∧ u = ci src ∧ v = si dst) ∨
    ∃ src dst, asked ⟨src, dst, .rw⟩ ∧ u = si src ∧ v = ci dst

/-- A graph that has kept all orderings asked for. -/
structure Deduplicated (o : SetOrder) (n : Nat) (asked : Edge → Prop)
    (G : ArgumentedPolyGraph κ) : Prop where
  inStep : G.InStep
  arcs : ∃ B, G.toBCGraph o = .ok B ∧ B.nNodes = 2 * n ∧ (∀ u, (B.edges u).Nodup) ∧
    ∀ u v, v ∈ B.edges u ↔ AskedArc n asked u v

end Definitions

section Step

variable {G G' : ArgumentedPolyGraph κ} {src dst : Nat} {type : EdgeType}

/-- An edge is stored, or dropped for another one that says the same. -/
theorem addEdge_cases (h : G.addEdge src dst type = .ok G') :
    G' = G ∨ (G' = G.store src dst type ∧
      (type ≠ .rw → ∀ t, t ≠ .rw → (dst, t) ∈ G.edges src → t = type)) := by
  simp only [addEdge, bind_eq_ok] at h
  obtain ⟨_, _, _, _, _, _, h⟩ := h
  split at h
  · cases h
  · split at h
    · rename_i hrw
      cases h
      exact .inr ⟨rfl, fun hne => absurd hrw hne⟩
    · split at h
      · cases h
        exact .inl rfl
      · rename_i hdup
        cases h
        refine .inr ⟨rfl, fun _ t ht hm => ?_⟩
        by_contra hne
        exact hdup (any_otherTypes.mpr ⟨t, ht, hne, hm⟩)

theorem lookup_store (u v : Nat) : ((G.store src dst type).edgeTypeLookup u).get? v =
    if u = src ∧ v = dst then some (((G.edgeTypeLookup src).getD dst []).insert type)
    else (G.edgeTypeLookup u).get? v := by
  by_cases hu : u = src
  · subst hu
    simp only [store, Function.update_self, Dict.get?_set, true_and]
  · simp [store, hu]

theorem inStep_init (n : Nat) : (init n : ArgumentedPolyGraph κ).InStep where
  sets _ := List.nodup_nil
  single _ _ _ _ _ _ h := absurd h List.not_mem_nil
  lookup _ _ _ h := by cases h
  absent _ _ _ _ := List.not_mem_nil

/-- The types recorded for two transactions. -/
theorem InStep.mem_getD (h : G.InStep) (src dst : Nat) :
    ((G.edgeTypeLookup src).getD dst []).Nodup ∧ ∀ t, t ∈ (G.edgeTypeLookup src).getD dst [] ↔
      (dst, t) ∈ G.edges src := by
  rw [Dict.getD]
  cases hl : (G.edgeTypeLookup src).get? dst with
  | none => exact ⟨List.nodup_nil, fun t => iff_of_false List.not_mem_nil (h.absent src dst hl t)⟩
  | some types =>
    obtain ⟨hn, _, hmem⟩ := h.lookup src dst types hl
    exact ⟨hn, hmem⟩

/-- Between other transactions nothing is stored. -/
theorem mem_store_other {u v : Nat} (h : ¬ (u = src ∧ v = dst)) (t : EdgeType) :
    (v, t) ∈ (G.store src dst type).edges u ↔ (v, t) ∈ G.edges u := by
  rw [mem_store, or_iff_left]
  rintro ⟨rfl, he⟩
  cases he
  exact h ⟨rfl, rfl⟩

theorem mem_store_same (t : EdgeType) :
    (dst, t) ∈ (G.store src dst type).edges src ↔ t = type ∨ (dst, t) ∈ G.edges src := by
  rw [mem_store, or_comm]
  simp

theorem InStep.store (h : G.InStep)
    (hnew : type ≠ .rw → ∀ t, t ≠ .rw → (dst, t) ∈ G.edges src → t = type) :
    (G.store src dst type).InStep where
  sets u := by
    by_cases hu : u = src
    · subst hu
      simpa only [ArgumentedPolyGraph.store, Function.update_self] using (h.sets u).insert
    · simpa only [ArgumentedPolyGraph.store, Function.update_of_ne hu] using h.sets u
  single u v t t' ht ht' hm hm' := by
    by_cases hpair : u = src ∧ v = dst
    · obtain ⟨rfl, rfl⟩ := hpair
      rcases (mem_store_same t).mp hm with rfl | hold
      · rcases (mem_store_same t').mp hm' with rfl | hold'
        · rfl
        · exact (hnew ht t' ht' hold').symm
      · rcases (mem_store_same t').mp hm' with rfl | hold'
        · exact hnew ht' t ht hold
        · exact h.single u v t t' ht ht' hold hold'
    · exact h.single u v t t' ht ht' ((mem_store_other hpair t).mp hm)
        ((mem_store_other hpair t').mp hm')
  lookup u v types hl := by
    rw [lookup_store] at hl
    by_cases hpair : u = src ∧ v = dst
    · rw [if_pos hpair] at hl
      obtain ⟨rfl, rfl⟩ := hpair
      obtain rfl := Option.some.inj hl
      obtain ⟨hn, hmem⟩ := h.mem_getD u v
      refine ⟨hn.insert, List.ne_nil_of_mem (List.mem_insert_self), fun t => ?_⟩
      rw [List.mem_insert_iff, hmem, mem_store_same]
    · rw [if_neg hpair] at hl
      obtain ⟨hn, hne, hmem⟩ := h.lookup u v types hl
      exact ⟨hn, hne, fun t => (hmem t).trans (mem_store_other hpair t).symm⟩
  absent u v hl t hm := by
    rw [lookup_store] at hl
    by_cases hpair : u = src ∧ v = dst
    · rw [if_pos hpair] at hl
      cases hl
    · rw [if_neg hpair] at hl
      exact h.absent u v hl t ((mem_store_other hpair t).mp hm)

theorem InStep.addEdge (h : G.InStep) (hG : G.addEdge src dst type = .ok G') : G'.InStep := by
  rcases addEdge_cases hG with rfl | ⟨rfl, hnew⟩
  · exact h
  · exact h.store hnew

theorem InStep.addEdgePair (h : G.InStep) {e f : Edge}
    (hG : G.addEdgePair e.src e.dst e.type f.src f.dst f.type = .ok G') : G'.InStep := by
  simp only [ArgumentedPolyGraph.addEdgePair, bind_eq_ok] at hG
  obtain ⟨_, _, _, _, hG⟩ := hG
  split at hG
  · cases hG
    exact h
  · cases hG
    exact ⟨h.sets, h.single, h.lookup, h.absent⟩

/-- Every script leaves the indices in step. -/
theorem InStep.play {S : Script} (h : G.InStep) (hG : play G S = .ok G') : G'.InStep := by
  refine foldlM_invariant InStep (fun G x G' _ hstep hx => ?_) h hG
  rw [bind_eq_ok] at hx
  obtain ⟨c, _, hc⟩ := hx
  cases c with
  | edge e => exact hstep.addEdge hc
  | pair e f => exact hstep.addEdgePair hc

end Step

section Run

def EdgeCall.script (call : EdgeCall) : Script := call.edges.map fun e => .ok (.edge e)

theorem callEdges_eq_play (G : ArgumentedPolyGraph κ) (call : EdgeCall) :
    G.callEdges call = play G call.script := by
  cases call with
  | addEdge src dst type => exact (play_edge G ⟨src, dst, type⟩).symm
  | addEdges srcList dstList type =>
    rw [callEdges, addEdges_eq_play, edgesScript, EdgeCall.script, EdgeCall.edges, List.map_flatMap]
    simp only [List.map_map, Function.comp_def]

theorem addCalls_eq_play (n : Nat) (calls : List EdgeCall) :
    addCalls n calls = play (init n : ArgumentedPolyGraph κ) (calls.flatMap EdgeCall.script) :=
  foldlM_eq_play (fun call _ G => G.callEdges_eq_play call) (init n)

theorem mem_script {calls : List EdgeCall} {x : Except Err Cmd} :
    x ∈ calls.flatMap EdgeCall.script ↔ ∃ call ∈ calls, ∃ e ∈ call.edges, x = .ok (.edge e) := by
  simp only [List.mem_flatMap, EdgeCall.script, List.mem_map, eq_comm]

variable {G : ArgumentedPolyGraph κ} {n : Nat} {asked : Edge → Prop}

/-- The edges of the BC graph, read off the orderings. -/
theorem askedArc_iff {u v : Nat} : AskedArc n asked u v ↔
    ∃ a b : Event, ((∃ i < n, a = .s i ∧ b = .c i) ∨ ∃ e, asked e ∧ e.before = (a, b)) ∧ a.num = u ∧
    b.num = v := by
  constructor
  · rintro (⟨i, hi, rfl, rfl⟩ | ⟨src, dst, type, ht, he, rfl, rfl⟩ | ⟨src, dst, he, rfl, rfl⟩)
    · exact ⟨.s i, .c i, .inl ⟨i, hi, rfl, rfl⟩, rfl, rfl⟩
    · exact ⟨.c src, .s dst, .inr ⟨_, he, before_of_ne_rw ht⟩, rfl, rfl⟩
    · exact ⟨.s src, .c dst, .inr ⟨_, he, rfl⟩, rfl, rfl⟩
  · rintro ⟨a, b, ⟨i, hi, rfl, rfl⟩ | ⟨⟨src, dst, type⟩, he, hb⟩, rfl, rfl⟩
    · exact .inl ⟨i, hi, rfl, rfl⟩
    · by_cases ht : type = .rw
      · subst ht
        cases hb
        exact .inr (.inr ⟨src, dst, he, rfl, rfl⟩)
      · rw [before_of_ne_rw ht] at hb
        cases hb
        exact .inr (.inl ⟨src, dst, type, ht, he, rfl, rfl⟩)

/-- The BC graph shows what was asked for, whatever was dropped. -/
theorem arcs_of_before (o : SetOrder) (hn : G.nNodes = n) (hr : G.EdgesInRange)
    (hb : ∀ a b, G.Before a b ↔ ∃ e, asked e ∧ e.before = (a, b)) :
    ∃ B, G.toBCGraph o = .ok B ∧ B.nNodes = 2 * n ∧ (∀ u, (B.edges u).Nodup) ∧
      ∀ u v, v ∈ B.edges u ↔ AskedArc n asked u v := by
  obtain ⟨B, hB, hs⟩ := toBCGraph_spec o hr
  have hknown : ∀ a b, G.KnownBC a b ↔
      (∃ i < n, a = .s i ∧ b = .c i) ∨ ∃ e, asked e ∧ e.before = (a, b) := by
    intro a b
    rw [← hb]
    constructor
    · intro h
      cases h with
      | begins hi => exact .inl ⟨_, hn ▸ hi, rfl, rfl⟩
      | known h => exact .inr h
      | chosen hp _ => cases hp
    · rintro (⟨i, hi, rfl, rfl⟩ | h)
      · exact .begins (hn ▸ hi)
      · exact .known h
  refine ⟨B, hB, hn ▸ hs.nNodes, hs.nodup, fun u v => ?_⟩
  rw [askedArc_iff, hs.mem]
  simp only [hknown]

/-- Whatever the order and the repetition of the calls, the edges order what was
asked for, and the indices agree. -/
theorem deduplicated_addCalls (o : SetOrder) (n : Nat) (calls : List EdgeCall)
    (h : ∀ call ∈ calls, ∀ e ∈ call.edges, Proper n e) :
    ∃ G : ArgumentedPolyGraph κ, addCalls n calls = .ok G ∧
      Deduplicated o n (fun e => ∃ call ∈ calls, e ∈ call.edges) G := by
  have hvalid : ∀ x ∈ calls.flatMap EdgeCall.script, ∃ c, x = .ok c ∧ c.Valid n := by
    intro x hx
    obtain ⟨call, hcall, e, he, rfl⟩ := mem_script.mp hx
    obtain ⟨hne, h0, hlt, _⟩ := h call hcall e he
    exact ⟨.edge e, rfl, hne, h0, hlt⟩
  obtain ⟨G, hG, hplayed⟩ := play_spec (G := (init n : ArgumentedPolyGraph κ)) hvalid
  have hbefore : ∀ a b, G.Before a b ↔
      ∃ e, (∃ call ∈ calls, e ∈ call.edges) ∧ e.before = (a, b) := by
    intro a b
    have hempty : ¬ (init n : ArgumentedPolyGraph κ).Before a b := by simp [Before, init]
    rw [hplayed.before, or_iff_right hempty]
    apply exists_congr
    intro e
    rw [mem_script]
    simp
  have hends : ∀ {src dst type}, (dst, type) ∈ G.edges src → src < n ∧ dst < n := by
    intro src dst type hm
    obtain ⟨e, ⟨call, hcall, he⟩, hb⟩ := (hbefore _ _).mp ⟨src, dst, type, hm, rfl⟩
    obtain ⟨rfl, rfl⟩ : e.src = src ∧ e.dst = dst := Edge.ends_of_before hb
    obtain ⟨_, _, hsrc, hdst⟩ := h call hcall e he
    exact ⟨hsrc, hdst⟩
  have hrange : G.EdgesInRange :=
    ⟨fun hm => hplayed.nNodes ▸ (hends hm).1, fun hm => hplayed.nNodes ▸ (hends hm).2⟩
  exact ⟨G, (addCalls_eq_play n calls).trans hG, (inStep_init n).play hG,
    arcs_of_before o hplayed.nNodes hrange hbefore⟩

section Example

/-- All three types from T0 to transaction 1, one of them twice. -/
def repeated : List EdgeCall :=
  [.addEdges [0] [1, 2] .cb, .addEdge 0 1 .wr, .addEdge 1 2 .rw, .addEdges [0] [1] .ww,
    .addEdge 0 1 .cb]

theorem deduplicated_addCalls_repeated : (∀ call ∈ repeated, ∀ e ∈ call.edges, Proper 3 e) ∧
    ∃ G : ArgumentedPolyGraph Nat, addCalls 3 repeated = .ok G ∧
      Deduplicated .stored 3 (fun e => ∃ call ∈ repeated, e ∈ call.edges) G :=
  ⟨by decide, deduplicated_addCalls .stored 3 repeated (by decide)⟩

/-- The first type asked for is the one that is stored. -/
example : (addCalls 3 repeated : Except Err (ArgumentedPolyGraph Nat)).map (·.edges 0) = .ok
    [(2, .cb), (1, .cb)] ∧
    (addCalls 3 repeated.tail : Except Err (ArgumentedPolyGraph Nat)).map (·.edges 0) =
    .ok [(1, .wr)] := ⟨rfl, rfl⟩

end Example

end Run

end ArgumentedPolyGraph

end Viper
