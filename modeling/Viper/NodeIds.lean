import Viper.GraphFile
import Viper.PairRetry

/-!
# Node ids (`is_valid_node_id`)

The guard of `add_edge` and `add_edge_pair` accepts every id. The source of an
edge is a node all the same, since the adjacency dict has no other keys; a target
and the ends of a pair can be any integers. Here the methods are programs over
the graph, so that what a failing call has changed before it fails can be seen.
The plain builder never makes a call that would need the guard.
-/
namespace Viper

open Py

namespace GraphFile

/-- A method of the graph: an exception leaves what was changed before it. -/
abbrev Method := EStateM Err PolyGraph

namespace Method

def check (b : Bool) : Method Unit := if b then pure () else throw (.assertion "")

/-- `self.edges[src]` -/
def edgesAt (src : Int) : Method (List (Int × EdgeType)) := do
  let G ← get
  if 0 ≤ src ∧ src < G.nNodes then pure (G.edges src) else throw .keyError

/-- `self.edge_type_lookup[src]` -/
def lookupAt (src : Int) : Method (Dict Int (List EdgeType)) := do
  let G ← get
  if 0 ≤ src ∧ src < G.nNodes then pure (G.edgeTypeLookup src) else throw .keyError

/-- The two indices are updated one after the other. -/
def storeEdge (src dst : Int) (type : EdgeType) : Method Unit := do
  let stored ← edgesAt src
  modify fun G => { G with edges := Function.update G.edges src (stored.insert (dst, type)) }
  let lookup ← lookupAt src
  modify fun G => { G with
    edgeTypeLookup :=
      Function.update G.edgeTypeLookup src (lookup.set dst ((lookup.getD dst []).insert type)) }

def addEdge (src dst : Int) (type : EdgeType) : Method Unit := do
  let G ← get
  check (G.isValidNodeId [src, dst])
  check (src ≠ dst)
  check (dst ≠ 0)
  if type = .rw then storeEdge src dst type
  else do
    let stored ← edgesAt src
    if (ArgumentedPolyGraph.otherTypes type).any (fun t => stored.contains (dst, t)) then pure ()
    else storeEdge src dst type

def addEdges (srcList dstList : List Int) (type : EdgeType) : Method Unit :=
  forM srcList fun src => forM dstList fun dst => addEdge src dst type

def addEdgePair (e1 e2 : IntEdge) : Method Unit := do
  let G ← get
  check (G.isValidNodeId [e1.1, e1.2.1, e2.1, e2.2.1])
  check (e1.1 ≠ e1.2.1 ∧ e2.1 ≠ e2.2.1)
  if G.edgePairs.contains (e1, e2) || G.edgePairs.contains (e2, e1) then pure ()
  else set { G with edgePairs := G.edgePairs.insert (e1, e2) }

end Method

def Call.method : Call → Method Unit
  | .addEdge e => Method.addEdge e.1 e.2.1 e.2.2
  | .addEdgePair e1 e2 => Method.addEdgePair e1 e2

/-- A call of `add_edge` or `add_edge_pair`, or one of `add_edges`. -/
inductive Request where
  | call : Call → Request
  | addEdges (srcList dstList : List Int) (type : EdgeType)

def Request.method : Request → Method Unit
  | .call c => c.method
  | .addEdges srcList dstList type => Method.addEdges srcList dstList type

/-- The single edges and pairs of a call, in their order. -/
def Request.steps : Request → List Call
  | .call c => [c]
  | .addEdges srcList dstList type =>
    srcList.flatMap fun src => dstList.map fun dst => .addEdge (src, dst, type)

/-- The graph that a method leaves, whether it raises or not. -/
def stateOf : EStateM.Result Err PolyGraph Unit → PolyGraph
  | .ok _ G => G
  | .error _ G => G

/-- The graph after a sequence of calls. -/
def afterCalls (n : Int) (rs : List Request) : PolyGraph :=
  rs.foldl (fun G r => stateOf (r.method.run G)) (PolyGraph.init n)

section BCGraph

structure IntBCGraph where
  nNodes : Int
  edges : Int → List Int

/-- The loop of the source only continues: every id is accepted. -/
def IntBCGraph.isValidNodeId (_ : IntBCGraph) (_ : List Int) : Bool := true

/-- The adjacency dict has the keys of `range(1, n_nodes + 1)`. -/
def IntBCGraph.addEdge (B : IntBCGraph) (src dst : Int) : Except Err IntBCGraph := do
  require (B.isValidNodeId [src, dst]) ""
  require (src ≠ dst) ""
  require (src ≠ 0) ""
  if 1 ≤ src ∧ src ≤ B.nNodes then
    .ok { B with edges := Function.update B.edges src ((B.edges src).insert dst) }
  else .error .keyError

def intSi (i : Int) : Int := 2 * i + 1
def intCi (i : Int) : Int := 2 * i + 2

/-- The two events an edge of a given type orders. -/
def arc (e : IntEdge) : Int × Int :=
  match e.2.2 with
  | .rw => (intSi e.1, intCi e.2.1)
  | _ => (intCi e.1, intSi e.2.1)

def toBCGraph (o : SetOrder) (G : PolyGraph) : Except Err IntBCGraph := do
  let B ← (List.range G.nNodes.toNat).foldlM (fun B i => B.addEdge (intSi i) (intCi i))
    ⟨2 * G.nNodes, fun _ => []⟩
  (edgeList o G).foldlM (fun B e => B.addEdge (arc e).1 (arc e).2) B

end BCGraph

section Property

/-- What `is_valid_node_id` is meant to test. -/
def ValidNode (n i : Int) : Prop := 0 ≤ i ∧ i < n

def Call.endpoints : Call → List Int
  | .addEdge e => [e.1, e.2.1]
  | .addEdgePair e f => [e.1, e.2.1, f.1, f.2.1]

/-- The tests of a call that work: no self edge, no edge into T0, and an edge starts at a node. -/
def Call.Passes (n : Int) : Call → Prop
  | .addEdge e => e.1 ≠ e.2.1 ∧ e.2.1 ≠ 0 ∧ ValidNode n e.1
  | .addEdgePair e f => e.1 ≠ e.2.1 ∧ f.1 ≠ f.2.1

/-- A call fails where its failing edge stands, or mentions nodes only. -/
structure Guarded (n : Int) (G : PolyGraph) (r : Request) : Prop where
  fails : ∀ e G', r.method.run G = .error e G' → ∃ done c rest, r.steps = done ++ c :: rest ∧
    (forM done Call.method).run G = .ok () G' ∧ c.method.run G' = .error e G'
  completes : ∀ G', r.method.run G = .ok () G' → ∀ c ∈ r.steps, ∀ i ∈ c.endpoints, ValidNode n i

/-- All stored edges and pairs lead between nodes. -/
structure OnNodes (G : PolyGraph) : Prop where
  edges : ∀ e : IntEdge, e.2 ∈ G.edges e.1 → ∀ i ∈ (Call.addEdge e).endpoints, ValidNode G.nNodes i
  pairs : ∀ e f, (e, f) ∈ G.edgePairs → ∀ i ∈ (Call.addEdgePair e f).endpoints, ValidNode G.nNodes i

/-- The BC graph mentions the events of the nodes only. -/
def OnEvents (o : SetOrder) (G : PolyGraph) : Prop :=
  ∃ B, toBCGraph o G = .ok B ∧ ∀ u v, v ∈ B.edges u →
    (1 ≤ u ∧ u ≤ 2 * G.nNodes) ∧ (1 ≤ v ∧ v ≤ 2 * G.nNodes)

/-- No call of a sequence stores an edge to a node that the graph does not have. -/
structure NodesChecked (o : SetOrder) (n : Int) (rs : List Request) : Prop where
  calls : ∀ before r after, rs = before ++ r :: after → Guarded n (afterCalls n before) r
  nNodes : ∀ before after, rs = before ++ after → (afterCalls n before).nNodes = n
  stored : ∀ before after, rs = before ++ after → OnNodes (afterCalls n before)
  events : ∀ before after, rs = before ++ after → OnEvents o (afterCalls n before)

/-- Every step that is reached fails a test that works, or leads between nodes. -/
def Harmless (n : Int) : List Call → Prop
  | [] => True
  | c :: cs => c.Passes n → (∀ i ∈ c.endpoints, ValidNode n i) ∧ Harmless n cs

end Property

section Run

variable {G G' : PolyGraph} {src dst : Int} {type : EdgeType}

/-- The outcome of an update that raises before it changes anything. -/
def outcome (G : PolyGraph) : Except Err PolyGraph → EStateM.Result Err PolyGraph Unit
  | .ok G' => .ok () G'
  | .error e => .error e G

namespace Method

@[simp] theorem run_get : (get : Method PolyGraph).run G = .ok G G := rfl

@[simp] theorem run_throw {α : Type} (e : Err) : (throw e : Method α).run G = .error e G := rfl

@[simp] theorem run_pure {α : Type} (a : α) : (pure a : Method α).run G = .ok a G := rfl

/-- An assertion in a method is one of the update. -/
theorem run_check_bind {m : Method Unit} {x : Except Err PolyGraph} (b : Bool)
    (h : m.run G = outcome G x) :
    (check b >>= fun _ => m).run G = outcome G (require b "" >>= fun _ => x) := by
  cases b with
  | true => exact h
  | false => rfl

theorem run_edgesAt : (edgesAt src).run G =
    if 0 ≤ src ∧ src < G.nNodes then .ok (G.edges src) G else .error .keyError G := by
  by_cases h : 0 ≤ src ∧ src < G.nNodes <;>
    simp only [edgesAt, EStateM.run_bind, run_get, h, if_true, if_false, run_pure,
      run_throw, and_self]

theorem run_storeEdge : (storeEdge src dst type).run G =
    if 0 ≤ src ∧ src < G.nNodes then .ok () (G.store src dst type) else .error .keyError G := by
  by_cases h : 0 ≤ src ∧ src < G.nNodes
  · simp [storeEdge, EStateM.run_bind, run_edgesAt, lookupAt, h, PolyGraph.store]
  · simp [storeEdge, EStateM.run_bind, run_edgesAt, h]

/-- All exceptions of `add_edge` are raised before the first update. -/
theorem run_addEdge : (addEdge src dst type).run G = outcome G (G.addEdge src dst type) := by
  rw [addEdge, EStateM.run_bind, run_get]
  apply run_check_bind
  apply run_check_bind
  apply run_check_bind
  by_cases hs : 0 ≤ src ∧ src < G.nNodes
  · have hrange : ¬ (src < 0 ∨ G.nNodes ≤ src) := by omega
    rw [if_neg hrange]
    split
    · rw [run_storeEdge, if_pos hs]
      rfl
    · rw [EStateM.run_bind, run_edgesAt, if_pos hs]
      simp only [List.contains_eq_mem]
      split
      · rfl
      · exact run_storeEdge.trans (if_pos hs)
  · have hrange : src < 0 ∨ G.nNodes ≤ src := by omega
    rw [if_pos hrange]
    split
    · rw [run_storeEdge, if_neg hs]
      rfl
    · rw [EStateM.run_bind, run_edgesAt, if_neg hs]
      rfl

theorem run_addEdgePair (e1 e2 : IntEdge) :
    (addEdgePair e1 e2).run G = outcome G (G.addEdgePair e1 e2) := by
  rw [addEdgePair, EStateM.run_bind, run_get]
  apply run_check_bind
  apply run_check_bind
  simp only [List.contains_eq_mem, Bool.or_eq_true, decide_eq_true_eq]
  split
  · rfl
  · rfl

end Method

theorem Call.run_method (c : Call) : c.method.run G = outcome G (G.call c) := by
  cases c with
  | addEdge e => exact Method.run_addEdge
  | addEdgePair e1 e2 => exact Method.run_addEdgePair e1 e2

/-- Two nested loops are one loop over the pairs. -/
theorem Request.method_eq (r : Request) : r.method = forM r.steps Call.method := by
  cases r with
  | call c => simp [Request.method, Request.steps]
  | addEdges srcList dstList type =>
    rw [Request.method, Request.steps, Method.addEdges]
    induction srcList with
    | nil => rfl
    | cons src srcList ih =>
      rw [List.forM_cons, List.flatMap_cons, List.forM_append, ih, List.forM_map]
      rfl

theorem run_forM_cons (c : Call) (cs : List Call) : (forM (c :: cs) Call.method).run G =
    match G.call c with
    | .ok G' => (forM cs Call.method).run G'
    | .error e => .error e G := by
  rw [List.forM_cons, EStateM.run_bind, Call.run_method]
  cases G.call c with
  | ok G' => rfl
  | error e => rfl

/-- What each step that completes preserves, the steps of a call preserve. -/
theorem forM_invariant (I : PolyGraph → Prop) (step : ∀ G c G', I G → G.call c = .ok G' → I G')
    (h : I G) (cs : List Call) :
    I (stateOf ((forM cs Call.method).run G)) := by
  induction cs generalizing G with
  | nil => exact h
  | cons c cs ih =>
    rw [run_forM_cons]
    cases hc : G.call c with
    | ok G' => exact ih (step G c G' h hc)
    | error e => exact h

theorem afterCalls_invariant (I : PolyGraph → Prop)
    (step : ∀ G c G', I G → G.call c = .ok G' → I G') {n : Int}
    (h : I (PolyGraph.init n)) (rs : List Request) : I (afterCalls n rs) := by
  have hrun : ∀ G, I G → I (rs.foldl (fun G r => stateOf (r.method.run G)) G) := by
    induction rs with
    | nil => exact fun G hG => hG
    | cons r rs ih =>
      intro G hG
      have hr := forM_invariant I step hG r.steps
      rw [← Request.method_eq] at hr
      exact ih _ hr
  exact hrun _ h

/-- The first step that fails leaves the graph as the steps before it made it. -/
theorem run_forM_error {cs : List Call} {e : Err} (h : (forM cs Call.method).run G = .error e G') :
    ∃ done c rest, cs = done ++ c :: rest ∧ (forM done Call.method).run G = .ok () G' ∧
      c.method.run G' = .error e G' := by
  induction cs generalizing G with
  | nil => cases h
  | cons c cs ih =>
    rw [run_forM_cons] at h
    cases hc : G.call c with
    | ok G₁ =>
      rw [hc] at h
      obtain ⟨done, d, rest, rfl, hdone, hd⟩ := ih h
      refine ⟨c :: done, d, rest, rfl, ?_, hd⟩
      rw [run_forM_cons, hc]
      exact hdone
    | error e' =>
      rw [hc] at h
      cases h
      refine ⟨[], c, cs, rfl, rfl, ?_⟩
      rw [Call.run_method, hc]
      rfl

end Run

section Steps

variable {G G' : PolyGraph} {c : Call} {n : Int}

theorem call_nNodes (h : G.call c = .ok G') : G'.nNodes = G.nNodes := by
  cases c with
  | addEdge e =>
    rcases PolyGraph.addEdge_cases h with ⟨rfl, _⟩ | ⟨_, rfl⟩
    · rfl
    · rfl
  | addEdgePair e f =>
    rcases PolyGraph.addEdgePair_cases h with ⟨rfl, _⟩ | ⟨_, rfl⟩
    · rfl
    · rfl

/-- A call completes exactly if it passes the tests that work. -/
theorem call_ok_iff : (∃ G', G.call c = .ok G') ↔ c.Passes G.nNodes := by
  cases c with
  | addEdge e =>
    rw [Call.Passes, ValidNode]
    constructor
    · rintro ⟨G', h⟩
      simp only [PolyGraph.call, PolyGraph.addEdge, bind_eq_ok, require_eq_ok, decide_eq_true_eq]
        at h
      obtain ⟨_, _, _, hne, _, h0, h⟩ := h
      split at h
      · cases h
      · exact ⟨hne, h0, by omega⟩
    · rintro ⟨hne, h0, hs⟩
      have hrange : ¬ (e.1 < 0 ∨ G.nNodes ≤ e.1) := by omega
      simp only [PolyGraph.call, PolyGraph.addEdge, PolyGraph.isValidNodeId, require, hne, h0,
        ne_eq, not_false_eq_true, decide_true, if_true, ok_bind, if_neg hrange]
      split
      · exact ⟨_, rfl⟩
      · split
        · exact ⟨_, rfl⟩
        · exact ⟨_, rfl⟩
  | addEdgePair e f =>
    rw [Call.Passes]
    constructor
    · rintro ⟨G', h⟩
      simp only [PolyGraph.call, PolyGraph.addEdgePair, bind_eq_ok, require_eq_ok,
        decide_eq_true_eq] at h
      obtain ⟨_, _, _, hne, _⟩ := h
      exact hne
    · intro hne
      simp only [PolyGraph.call, PolyGraph.addEdgePair, PolyGraph.isValidNodeId, require, hne,
        ne_eq, not_false_eq_true, and_self, decide_true, if_true, ok_bind]
      split
      · exact ⟨_, rfl⟩
      · exact ⟨_, rfl⟩

theorem mem_store {src dst : Int} {type : EdgeType} {u : Int} {p : Int × EdgeType} :
    p ∈ (G.store src dst type).edges u ↔ p ∈ G.edges u ∨ (u = src ∧ p = (dst, type)) := by
  by_cases h : u = src
  · subst h
    simp only [PolyGraph.store, Function.update_self, List.mem_insert_iff, true_and]
    exact Or.comm
  · simp [PolyGraph.store, h]

theorem onNodes_store {e : IntEdge} : OnNodes (G.store e.1 e.2.1 e.2.2) ↔
    OnNodes G ∧ ∀ i ∈ (Call.addEdge e).endpoints, ValidNode G.nNodes i := by
  constructor
  · intro h
    exact ⟨⟨fun d hd => h.edges d (mem_store.mpr (.inl hd)), h.pairs⟩,
      h.edges e (mem_store.mpr (.inr ⟨rfl, rfl⟩))⟩
  · rintro ⟨h, he⟩
    refine ⟨fun d hd => ?_, h.pairs⟩
    rcases mem_store.mp hd with hold | hnew
    · exact h.edges d hold
    · obtain rfl : d = e := Prod.ext hnew.1 hnew.2
      exact he

theorem onNodes_insertPair {e f : IntEdge} :
    OnNodes { G with edgePairs := G.edgePairs.insert (e, f) } ↔
    OnNodes G ∧ ∀ i ∈ (Call.addEdgePair e f).endpoints, ValidNode G.nNodes i := by
  constructor
  · intro h
    exact ⟨⟨h.edges, fun d g hd => h.pairs d g (List.mem_insert_of_mem hd)⟩,
      h.pairs e f List.mem_insert_self⟩
  · rintro ⟨h, he⟩
    refine ⟨h.edges, fun d g hd => ?_⟩
    rcases List.mem_insert_iff.mp hd with hnew | hold
    · cases hnew
      exact he
    · exact h.pairs d g hold

/-- The nodes of a pair do not depend on its orientation. -/
theorem mem_endpoints_swap {e f : IntEdge} {i : Int} :
    i ∈ (Call.addEdgePair e f).endpoints ↔ i ∈ (Call.addEdgePair f e).endpoints := by
  simp only [Call.endpoints, List.mem_cons, List.not_mem_nil, or_false]
  tauto

/-- After a call the graph is on its nodes exactly if it was before and the call
mentions nodes only: what is dropped as a duplicate is stored in another form. -/
theorem onNodes_call_iff (h : G.call c = .ok G') :
    OnNodes G' ↔ OnNodes G ∧ ∀ i ∈ c.endpoints, ValidNode G.nNodes i := by
  cases c with
  | addEdge e =>
    rcases PolyGraph.addEdge_cases h with ⟨rfl, t, hm⟩ | ⟨_, rfl⟩
    · exact (and_iff_left_of_imp fun hG => hG.edges (e.1, e.2.1, t) hm).symm
    · exact onNodes_store
  | addEdgePair e f =>
    rcases PolyGraph.addEdgePair_cases h with ⟨rfl, hm⟩ | ⟨_, rfl⟩
    · refine (and_iff_left_of_imp fun hG i hi => ?_).symm
      rcases hm with hm | hm
      · exact hG.pairs e f hm i hi
      · exact hG.pairs f e hm i (mem_endpoints_swap.mp hi)
    · exact onNodes_insertPair

end Steps

section Runs

variable {G G' : PolyGraph} {n : Int}

theorem onNodes_init (n : Int) : OnNodes (PolyGraph.init n) where
  edges _ h := absurd h List.not_mem_nil
  pairs _ _ h := absurd h List.not_mem_nil

/-- The steps of a call keep the graph on its nodes exactly if they are harmless. -/
theorem onNodes_forM_iff (cs : List Call) :
    OnNodes (stateOf ((forM cs Call.method).run G)) ↔ OnNodes G ∧ Harmless G.nNodes cs := by
  induction cs generalizing G with
  | nil => exact (and_iff_left trivial).symm
  | cons c cs ih =>
    rw [run_forM_cons, Harmless]
    cases hc : G.call c with
    | ok G' =>
      have hp : c.Passes G.nNodes := call_ok_iff.mp ⟨G', hc⟩
      dsimp only
      rw [ih, onNodes_call_iff hc, call_nNodes hc, and_assoc, forall_prop_of_true hp]
    | error e =>
      have hp : ¬ c.Passes G.nNodes := by
        intro hp
        obtain ⟨G', hok⟩ := call_ok_iff.mpr hp
        rw [hc] at hok
        cases hok
      exact (and_iff_left fun h => absurd h hp).symm

theorem nNodes_afterCalls (n : Int) (rs : List Request) : (afterCalls n rs).nNodes = n :=
  afterCalls_invariant (fun G => G.nNodes = n) (fun _ _ _ h hc => (call_nNodes hc).trans h) rfl rs

theorem inv_afterCalls (n : Int) (rs : List Request) : (afterCalls n rs).Inv := by
  refine afterCalls_invariant PolyGraph.Inv (fun G c G' h hc => ?_) (PolyGraph.inv_init n) rs
  have hattempt := h.attempt c
  rw [PolyGraph.attempt, hc] at hattempt
  exact hattempt

/-- A sequence of calls keeps the graph on its nodes exactly if all are harmless. -/
theorem onNodes_afterCalls_iff (n : Int) (rs : List Request) :
    OnNodes (afterCalls n rs) ↔ ∀ r ∈ rs, Harmless n r.steps := by
  have hrun : ∀ G : PolyGraph, G.nNodes = n →
      (OnNodes (rs.foldl (fun G r => stateOf (r.method.run G)) G) ↔
      OnNodes G ∧ ∀ r ∈ rs, Harmless n r.steps) := by
    induction rs with
    | nil => exact fun G _ => by simp
    | cons r rs ih =>
      intro G hG
      have hn : (stateOf (r.method.run G)).nNodes = n := by
        rw [Request.method_eq]
        exact forM_invariant (fun G => G.nNodes = n)
          (fun _ _ _ h hc => (call_nNodes hc).trans h) hG r.steps
      rw [List.foldl_cons, ih _ hn, Request.method_eq, onNodes_forM_iff, hG, and_assoc,
        List.forall_mem_cons]
  rw [afterCalls, hrun (PolyGraph.init n) rfl, and_iff_right (onNodes_init n)]

/-- The steps of a call that completes have all been reached. -/
theorem endpoints_of_ok {cs : List Call} (h : (forM cs Call.method).run G = .ok () G')
    (hh : Harmless G.nNodes cs) :
    ∀ c ∈ cs, ∀ i ∈ c.endpoints, ValidNode G.nNodes i := by
  induction cs generalizing G with
  | nil => intro c hc; cases hc
  | cons c cs ih =>
    rw [run_forM_cons] at h
    cases hc : G.call c with
    | ok G₁ =>
      rw [hc] at h
      obtain ⟨hends, hrest⟩ := hh (call_ok_iff.mp ⟨G₁, hc⟩)
      rw [← call_nNodes hc] at hrest
      intro d hd
      rcases List.mem_cons.mp hd with rfl | hd
      · exact hends
      · rw [← call_nNodes hc]
        exact ih h hrest d hd
    | error e =>
      rw [hc] at h
      cases h

end Runs

section Events

variable {G : PolyGraph} {n : Int}

theorem IntBCGraph.addEdge_spec {B : IntBCGraph} {src dst : Int} (hs : 1 ≤ src ∧ src ≤ B.nNodes)
    (hne : src ≠ dst) :
    ∃ B', B.addEdge src dst = .ok B' ∧ B'.nNodes = B.nNodes ∧ ∀ u v, v ∈ B'.edges u ↔
      v ∈ B.edges u ∨ (src, dst) = (u, v) := by
  have h0 : src ≠ 0 := by omega
  refine ⟨{ B with edges := Function.update B.edges src ((B.edges src).insert dst) }, ?_, rfl,
    fun u v => ?_⟩
  · simp only [IntBCGraph.addEdge, IntBCGraph.isValidNodeId, require, hne, h0, hs, ne_eq,
      not_false_eq_true, and_self, decide_true, if_true, ok_bind]
  · rw [Prod.mk.injEq]
    by_cases hu : u = src
    · subst hu
      simp only [Function.update_self, List.mem_insert_iff, true_and]
      rw [or_comm, eq_comm]
    · simp [Function.update_of_ne hu, Ne.symm hu]

/-- A loop that adds one edge an iteration. -/
theorem foldlM_addEdge {α : Type} (ends : α → Int × Int) {l : List α} {B : IntBCGraph}
    (hv : ∀ x ∈ l, (1 ≤ (ends x).1 ∧ (ends x).1 ≤ B.nNodes) ∧ (ends x).1 ≠ (ends x).2) :
    ∃ B', l.foldlM (fun (B : IntBCGraph) x => B.addEdge (ends x).1 (ends x).2) B = .ok B' ∧
      B'.nNodes = B.nNodes ∧
      ∀ u v, v ∈ B'.edges u ↔ v ∈ B.edges u ∨ ∃ x ∈ l, ends x = (u, v) := by
  induction l generalizing B with
  | nil => exact ⟨B, rfl, rfl, fun u v => by simp⟩
  | cons x l ih =>
    obtain ⟨hs, hne⟩ := hv x List.mem_cons_self
    obtain ⟨B₁, h₁, hn₁, hm₁⟩ := IntBCGraph.addEdge_spec hs hne
    obtain ⟨B₂, h₂, hn₂, hm₂⟩ := ih (B := B₁) (fun y hy => hn₁ ▸ hv y (List.mem_cons_of_mem x hy))
    refine ⟨B₂, ?_, hn₂.trans hn₁, fun u v => ?_⟩
    · rw [List.foldlM_cons, h₁, ok_bind, h₂]
    · rw [hm₂, hm₁, or_assoc, List.exists_mem_cons_iff]

theorem arc_ne (e : IntEdge) : (arc e).1 ≠ (arc e).2 := by
  obtain ⟨src, dst, type⟩ := e
  cases type <;> simp only [arc, intSi, intCi] <;> omega

/-- The events of a node are events of the graph. -/
theorem arc_range {e : IntEdge} : (ValidNode n e.1 → 1 ≤ (arc e).1 ∧ (arc e).1 ≤ 2 * n) ∧
    (ValidNode n e.2.1 → 1 ≤ (arc e).2 ∧ (arc e).2 ≤ 2 * n) := by
  obtain ⟨src, dst, type⟩ := e
  cases type <;> simp only [arc, intSi, intCi, ValidNode] <;> omega

theorem toBCGraph_spec (o : SetOrder) (h : G.Inv) :
    ∃ B, toBCGraph o G = .ok B ∧ B.nNodes = 2 * G.nNodes ∧
    ∀ u v, v ∈ B.edges u ↔ (∃ i, ValidNode G.nNodes i ∧ (intSi i, intCi i) = (u, v)) ∨
      ∃ e : IntEdge, e.2 ∈ G.edges e.1 ∧ arc e = (u, v) := by
  obtain ⟨B₁, h₁, hn₁, hm₁⟩ :=
    foldlM_addEdge (fun i : Nat => (intSi i, intCi i)) (l := List.range G.nNodes.toNat)
    (B := ⟨2 * G.nNodes, fun _ => []⟩) (fun i hi => by
      have hlt := List.mem_range.mp hi
      simp only [intSi, intCi]
      omega)
  obtain ⟨B₂, h₂, hn₂, hm₂⟩ := foldlM_addEdge arc (l := edgeList o G) (B := B₁) (fun e he => by
    rw [hn₁]
    exact ⟨arc_range.1 (h.src_range ((h.mem_edgeList o e).mp he)), arc_ne e⟩)
  refine ⟨B₂, ?_, hn₂.trans hn₁, fun u v => ?_⟩
  · rw [toBCGraph, h₁, ok_bind, h₂]
  · rw [hm₂, hm₁]
    simp only [h.mem_edgeList o, List.not_mem_nil, false_or, List.mem_range]
    apply or_congr_left
    constructor
    · rintro ⟨i, hi, he⟩
      exact ⟨i, ⟨by omega, by omega⟩, he⟩
    · rintro ⟨i, ⟨h0, hlt⟩, he⟩
      exact ⟨i.toNat, by omega, by rw [Int.toNat_of_nonneg h0]; exact he⟩

/-- A graph on its nodes has a BC graph on its events. -/
theorem onEvents_of_onNodes (o : SetOrder) (h : G.Inv) (hG : OnNodes G) : OnEvents o G := by
  obtain ⟨B, hB, _, hm⟩ := toBCGraph_spec o h
  refine ⟨B, hB, fun u v huv => ?_⟩
  rcases (hm u v).mp huv with ⟨i, hi, he⟩ | ⟨e, he, harc⟩
  · cases he
    rw [ValidNode] at hi
    simp only [intSi, intCi]
    omega
  · have hsrc := arc_range.1 (hG.edges e he e.1 (by simp [Call.endpoints]))
    have hdst := arc_range.2 (hG.edges e he e.2.1 (by simp [Call.endpoints]))
    rw [harc] at hsrc hdst
    exact ⟨hsrc, hdst⟩

end Events

section Main

theorem guarded_of_harmless {n : Int} {G : PolyGraph} (hn : G.nNodes = n) {r : Request}
    (h : Harmless n r.steps) :
    Guarded n G r where
  fails e G' he := by
    rw [Request.method_eq] at he
    exact run_forM_error he
  completes G' hok := by
    rw [Request.method_eq] at hok
    exact hn ▸ endpoints_of_ok hok (hn ▸ h)

/-- Whatever the sequence of calls, a graph stores edges to its own nodes only,
and calls that mention other ids fail, exactly if the tests that work catch every
such id. -/
theorem nodesChecked_iff (o : SetOrder) (n : Int) (rs : List Request) :
    NodesChecked o n rs ↔ ∀ r ∈ rs, Harmless n r.steps := by
  constructor
  · intro h
    exact (onNodes_afterCalls_iff n rs).mp (h.stored rs [] (List.append_nil rs).symm)
  · intro h
    have hon : ∀ before after, rs = before ++ after → OnNodes (afterCalls n before) := by
      intro before after he
      exact (onNodes_afterCalls_iff n before).mpr
        fun r hr => h r (he ▸ List.mem_append_left after hr)
    refine ⟨fun before r after he => ?_,
      fun before _ _ => nNodes_afterCalls n before, hon, fun before after he => ?_⟩
    · exact guarded_of_harmless (nNodes_afterCalls n before) (h r (by rw [he]; simp))
    · exact onEvents_of_onNodes o (inv_afterCalls n before) (hon before after he)

/-- A graph of two nodes takes an edge to node 5. -/
theorem strayEdge_not_checked :
    (afterCalls 2 [.call (.addEdge (0, 5, .wr))]).edges 0 = [(5, .wr)] ∧
      ¬ NodesChecked .stored 2 [.call (.addEdge (0, 5, .wr))] := by
  have hrun : (afterCalls 2 [.call (.addEdge (0, 5, .wr))]).edges 0 = [(5, .wr)] := rfl
  refine ⟨hrun, fun h => ?_⟩
  have hon := (h.stored _ [] rfl).edges (0, 5, .wr)
    (by rw [hrun]; exact List.mem_singleton_self _) 5 (by simp [Call.endpoints])
  rw [ValidNode, h.nNodes _ [] rfl] at hon
  omega

end Main

section Builder

variable {κ : Type} [LinearOrder κ] [ToString κ] {o : SetOrder} {H : List (Entry (Mop κ Value))}
  {histories : List (List (Entry (Mop κ Value)))} {strongSession hasFinal : Bool}
  {G : ArgumentedPolyGraph κ}

/-- Both edges of a pair of the plain builder lead between nodes. -/
theorem pair_lt {n : Nat} {E : List Edge} {P : List (Edge × Edge)} (h : Paired n E P)
    {p : Edge × Edge} (hp : p ∈ P) :
    (p.1.src < n ∧ p.1.dst < n) ∧ p.2.src < n ∧ p.2.dst < n := by
  rcases h.pairs p hp with ⟨x, i, j, hs, he⟩ | ⟨i, j, hi, hj, _, _, _, rfl⟩
  · obtain ⟨hx, hi, hj⟩ := hs.lt
    rcases he with rfl | rfl
    · exact ⟨⟨hx, hi⟩, hj, hx⟩
    · exact ⟨⟨hj, hx⟩, hx, hi⟩
  · exact ⟨⟨hi, hj⟩, hj, hi⟩

/-- The plain builder makes calls that are harmless: its graph stays on its nodes. -/
theorem onNodes_of_ok (hids : ∀ txns ∈ histories, ∀ e ∈ txns, e.id < H.length)
    (hG : AdyaSI.constructGraphFromLog o H histories strongSession hasFinal = .ok G) :
    ∃ calls, Embeds G (PolyGraph.build H.length calls) ∧
      OnNodes (PolyGraph.build H.length calls) := by
  obtain ⟨calls, hE⟩ := embeds_of_ok hG
  have hp := AdyaSI.pairPrunable_of_ok hids hG
  have hnode : ∀ {i : Nat}, i < G.nNodes → ValidNode (PolyGraph.build H.length calls).nNodes i := by
    intro i hi
    rw [ValidNode, hE.nNodes]
    omega
  refine ⟨calls, hE, fun e he => ?_, fun e f hef => ?_⟩
  · obtain ⟨src, dst, type⟩ := e
    obtain ⟨src, rfl⟩ := Int.eq_ofNat_of_zero_le ((PolyGraph.inv_build _ calls).src_range he).1
    rw [hE.edges] at he
    obtain ⟨q, hq, hqe⟩ := List.mem_map.mp he
    cases hqe
    intro i hi
    simp only [Call.endpoints, List.mem_cons, List.not_mem_nil, or_false] at hi
    rcases hi with rfl | rfl
    · exact hnode (hp.bounded.inv.src_lt hq)
    · exact hnode (hp.bounded.dst_lt hq)
  · rw [hE.edgePairs] at hef
    obtain ⟨q, hq, hqe⟩ := List.mem_map.mp hef
    obtain ⟨⟨h₁, h₂⟩, h₃, h₄⟩ := pair_lt hp.paired ((SetOrder.mem_iter o _ q).mpr hq)
    cases hqe
    intro i hi
    simp only [Call.endpoints, List.mem_cons, List.not_mem_nil, or_false] at hi
    rcases hi with rfl | rfl | rfl | rfl
    · exact hnode h₁
    · exact hnode h₂
    · exact hnode h₃
    · exact hnode h₄

end Builder

end GraphFile

end Viper
