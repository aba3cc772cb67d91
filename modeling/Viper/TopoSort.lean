import Viper.Instantiation
import Viper.Lib.Kahn

/-!
# Ranking the events (`ArgumentedPolyGraph.my_topo_sort`)

The begin and commit events are numbered from 1 on, T0's included, and sorted
by the known edges and, if that is possible, by the session order. The sort
counts the predecessors that are left of every event; it fails exactly if the
edges have a cycle. The position of an event is its rank.
-/
namespace Viper

open Py Precedence

structure BCGraph where
  nNodes : Nat
  edges : Nat → List Nat

namespace BCGraph

/-- `range(1, n_nodes + 1)`, the keys of `edges`. -/
def nodes (G : BCGraph) : List Nat := List.range' 1 G.nNodes

/-- The loop of the source only continues: every id is accepted. -/
def isValidNodeId (_ : BCGraph) (_ : List Nat) : Bool := true

def addEdge (G : BCGraph) (src dst : Nat) : Except Err BCGraph := do
  require (G.isValidNodeId [src, dst]) ""
  require (src ≠ dst) ""
  require (src ≠ 0) ""
  if src ∈ G.nodes then
    .ok { G with edges := Function.update G.edges src ((G.edges src).insert dst) }
  else .error .keyError

/-- `in_degrees[v] += d` -/
def addDegree (d : Int) (inDegrees : Dict Nat Int) (v : Nat) : Except Err (Dict Nat Int) :=
  match inDegrees.get? v with
  | none => .error .keyError
  | some x => .ok (inDegrees.set v (x + d))

def inDegrees (o : SetOrder) (G : BCGraph) : Except Err (Dict Nat Int) :=
  G.nodes.foldlM (fun inDegrees src => (o.iter (G.edges src)).foldlM (addDegree 1) inDegrees)
    (G.nodes.foldl (fun inDegrees u => inDegrees.set u 0) Dict.empty)

structure SortState where
  inDegrees : Dict Nat Int
  Q : List Nat
  sortedArr : List Nat

/-- One successor of the event taken from the queue. -/
def visit (st : Dict Nat Int × List Nat) (v : Nat) : Except Err (Dict Nat Int × List Nat) := do
  let inDegrees ← addDegree (-1) st.1 v
  .ok (inDegrees, if inDegrees.get? v = some 0 then st.2 ++ [v] else st.2)

def sortStep (o : SetOrder) (G : BCGraph) (st : SortState) : Except Err SortState :=
  match st.Q with
  | [] => .error .indexError
  | u :: Q => do
    let (inDegrees, Q) ← (o.iter (G.edges u)).foldlM visit (st.inDegrees, Q)
    .ok ⟨inDegrees, Q, st.sortedArr ++ [u]⟩

/-- The sort itself, which stands twice in `my_topo_sort`. -/
def sortNodes (fuel : Nat) (o : SetOrder) (G : BCGraph) : ExceptT Err Option (List Nat) := do
  let inDegrees ← fueled (G.inDegrees o)
  let Q := G.nodes.filter (fun u => inDegrees.get? u = some 0)
  let st ← whileLoop (fun st => !st.Q.isEmpty) (sortStep o G) fuel ⟨inDegrees, Q, []⟩
  fueled (.ok st.sortedArr)

end BCGraph

namespace ArgumentedPolyGraph

variable {κ : Type}

def addBCEdge (G : BCGraph) (e : Edge) : Except Err BCGraph :=
  match e.type with
  | .rw => G.addEdge (si e.src) (ci e.dst)
  | _ => G.addEdge (ci e.src) (si e.dst)

def toBCGraph (o : SetOrder) (g : ArgumentedPolyGraph κ) : Except Err BCGraph := do
  let G ← (List.range g.nNodes).foldlM (fun G i => G.addEdge (si i) (ci i))
    ⟨2 * g.nNodes, fun _ => []⟩
  (g.edgeList o).foldlM addBCEdge G

/-- The loops of `to_BC_graph`, and one over the sessions. -/
def myToBCGraphWSessionOrder (o : SetOrder) (g : ArgumentedPolyGraph κ) : Except Err BCGraph := do
  let G ← g.toBCGraph o
  g.histories.foldlM (fun G txns =>
    (txns.zip txns.tail).foldlM (fun G p => G.addEdge (ci p.1) (si p.2)) G) G

/-- The positions of the sorted events, as a dictionary. -/
def ranks (sortedArr : List Nat) : Except Err (Dict Nat Nat × List Nat) := do
  let nid2rank := sortedArr.zipIdx.foldl (fun nid2rank p => nid2rank.set p.1 p.2) Dict.empty
  require (nid2rank.entries.length = sortedArr.length) ""
  .ok (nid2rank, sortedArr)

/-- Without a sort that respects the sessions, the known edges alone are sorted.
The cycle that is printed before the rejection is left out. -/
def myTopoSort (fuel : Nat) (o : SetOrder) (g : ArgumentedPolyGraph κ) :
    ExceptT Err Option (Dict Nat Nat × List Nat) := do
  let G ← fueled (g.myToBCGraphWSessionOrder o)
  let sortedArr ← G.sortNodes fuel o
  if sortedArr.length ≠ G.nNodes then do
    let G ← fueled (g.toBCGraph o)
    let sortedArr ← G.sortNodes fuel o
    if sortedArr.length ≠ G.nNodes then fueled (.error (.reject "")) else fueled (ranks sortedArr)
  else fueled (ranks sortedArr)

end ArgumentedPolyGraph

section Fuel

theorem BCGraph.extends_sortNodes {fuel fuel' : Nat} (h : fuel ≤ fuel') (o : SetOrder)
    (G : BCGraph) :
    Extends (G.sortNodes fuel o) (G.sortNodes fuel' o) := by
  refine (Extends.refl _).bind (fun inDegrees => ?_)
  exact (extends_whileLoop _ _ h _).bind (fun st => .refl _)

theorem ArgumentedPolyGraph.extends_myTopoSort {κ : Type} {fuel fuel' : Nat} (h : fuel ≤ fuel')
    (o : SetOrder) (g : ArgumentedPolyGraph κ) :
    Extends (g.myTopoSort fuel o) (g.myTopoSort fuel' o) := by
  refine (Extends.refl _).bind (fun G => ?_)
  refine (G.extends_sortNodes h o).bind (fun sortedArr => ?_)
  split
  · refine (Extends.refl _).bind (fun G => ?_)
    exact (G.extends_sortNodes h o).bind (fun sortedArr => .refl _)
  · exact .refl _

end Fuel

section Building

theorem Event.num_injective : Function.Injective Event.num := fun a b h => by
  rw [← numEvent_num a, ← numEvent_num b, h]

theorem BCGraph.mem_nodes {G : BCGraph} {u : Nat} : u ∈ G.nodes ↔ 1 ≤ u ∧ u < 1 + G.nNodes := by
  rw [BCGraph.nodes, List.mem_range'_1]

/-- A graph on the numbers of the first `n` transactions' events. -/
structure BCGraph.Shows (G : BCGraph) (n : Nat) (R : Event → Event → Prop) : Prop where
  nNodes : G.nNodes = 2 * n
  nodup : ∀ u, (G.edges u).Nodup
  mem : ∀ u v, v ∈ G.edges u ↔ ∃ a b, R a b ∧ a.num = u ∧ b.num = v

namespace BCGraph

variable {G : BCGraph} {n : Nat} {R : Event → Event → Prop}

theorem shows_empty (n : Nat) : Shows ⟨2 * n, fun _ => []⟩ n (fun _ _ => False) where
  nNodes := rfl
  nodup _ := List.nodup_nil
  mem u v := by simp

theorem Shows.congr {S : Event → Event → Prop} (h : G.Shows n R) (hS : ∀ a b, R a b ↔ S a b) :
    G.Shows n S where
  nNodes := h.nNodes
  nodup := h.nodup
  mem u v := by simp only [h.mem, hS]

theorem Shows.num_mem (h : G.Shows n R) {a : Event} (ha : a.idx < n) : a.num ∈ G.nodes := by
  have hpos := a.num_pos
  have hle := Event.num_le ha
  rw [mem_nodes, h.nNodes]
  omega

theorem Shows.addEdge (h : G.Shows n R) {a b : Event} (ha : a.idx < n) (hab : a ≠ b) :
    ∃ G', G.addEdge a.num b.num = .ok G' ∧ G'.Shows n (fun x y => R x y ∨ (a, b) = (x, y)) := by
  have hne : a.num ≠ b.num := fun he => hab (Event.num_injective he)
  have h0 : a.num ≠ 0 := by
    have := a.num_pos
    omega
  have hok : G.addEdge a.num b.num =
      .ok { G with edges := Function.update G.edges a.num ((G.edges a.num).insert b.num) } := by
    simp only [BCGraph.addEdge, isValidNodeId, require, hne, h0, h.num_mem ha, ne_eq,
      not_false_eq_true, decide_true, if_true, ok_bind]
  refine ⟨_, hok, h.nNodes, fun u => ?_, fun u v => ?_⟩
  · by_cases hu : u = a.num
    · subst hu
      simpa only [Function.update_self] using (h.nodup _).insert
    · simpa only [Function.update_of_ne hu] using h.nodup u
  · have hsplit : (∃ x y, (R x y ∨ (a, b) = (x, y)) ∧ x.num = u ∧ y.num = v) ↔
        v ∈ G.edges u ∨ (a.num = u ∧ b.num = v) := by
      rw [h.mem]
      constructor
      · rintro ⟨x, y, hR | he, hu, hv⟩
        · exact .inl ⟨x, y, hR, hu, hv⟩
        · cases he
          exact .inr ⟨hu, hv⟩
      · rintro (⟨x, y, hR, hu, hv⟩ | ⟨hu, hv⟩)
        · exact ⟨x, y, .inl hR, hu, hv⟩
        · exact ⟨a, b, .inr rfl, hu, hv⟩
    rw [hsplit]
    by_cases hu : u = a.num
    · subst hu
      simp only [Function.update_self, List.mem_insert_iff, true_and]
      rw [or_comm, eq_comm]
    · simp [Function.update_of_ne hu, Ne.symm hu]

/-- A loop that adds one edge an iteration. -/
theorem Shows.addAll {α : Type} (step : BCGraph → α → Except Err BCGraph) {l : List α}
    (ends : α → Event × Event)
    (hstep : ∀ x ∈ l, ∀ G, step G x = G.addEdge (ends x).1.num (ends x).2.num)
    (hv : ∀ x ∈ l, (ends x).1.idx < n ∧ (ends x).1 ≠ (ends x).2) (h : G.Shows n R) :
    ∃ G', l.foldlM step G = .ok G' ∧ G'.Shows n (fun a b => R a b ∨ ∃ x ∈ l, ends x = (a, b)) := by
  induction l generalizing G R with
  | nil => exact ⟨G, rfl, h.congr (fun a b => by simp)⟩
  | cons x l ih =>
    obtain ⟨hlt, hne⟩ := hv x List.mem_cons_self
    obtain ⟨G₁, h₁, hs₁⟩ := h.addEdge hlt hne
    obtain ⟨G₂, h₂, hs₂⟩ := ih (fun y hy => hstep y (List.mem_cons_of_mem x hy))
      (fun y hy => hv y (List.mem_cons_of_mem x hy)) hs₁
    refine ⟨G₂, ?_, hs₂.congr (fun a b => ?_)⟩
    · rw [List.foldlM_cons, hstep x List.mem_cons_self, h₁, ok_bind, h₂]
    · rw [or_assoc, List.exists_mem_cons_iff]

/-- The numbers of the events have the cycles of the events. -/
theorem Shows.acyclic_iff (h : G.Shows n R) (hR : ∀ a b, R a b → a.idx < n ∧ b.idx < n) :
    Acyclic (Kahn.Arc G.nodes G.edges) ↔ Acyclic R := by
  constructor
  · intro ha
    refine ha.comap Event.num (fun a b hab => ?_)
    obtain ⟨hlt, hlt'⟩ := hR a b hab
    exact ⟨h.num_mem hlt, h.num_mem hlt', (h.mem _ _).mpr ⟨a, b, hab, rfl, rfl⟩⟩
  · intro ha
    refine ha.comap (fun u : Nat => numEvent u) (fun u v huv => ?_)
    obtain ⟨a, b, hab, rfl, rfl⟩ := (h.mem u v).mp huv.2.2
    simpa only [numEvent_num] using hab

/-- On the numbers, the edges are those of the events. -/
theorem Shows.acyclic_edges (h : G.Shows n R) : Acyclic (fun u v => v ∈ G.edges u) ↔ Acyclic R := by
  constructor
  · intro ha
    exact ha.comap Event.num (fun a b hab => (h.mem _ _).mpr ⟨a, b, hab, rfl, rfl⟩)
  · intro ha
    refine ha.comap (fun u : Nat => numEvent u) (fun u v huv => ?_)
    obtain ⟨a, b, hab, rfl, rfl⟩ := (h.mem u v).mp huv
    simpa only [numEvent_num] using hab

end BCGraph

theorem Edge.before_ne (e : Edge) : e.before.1 ≠ e.before.2 := by
  obtain ⟨src, dst, type⟩ := e
  cases type <;> exact nofun

namespace ArgumentedPolyGraph

variable {κ : Type} {g : ArgumentedPolyGraph κ}

/-- The BC graph of the known edges alone. -/
abbrev KnownBC (g : ArgumentedPolyGraph κ) : Event → Event → Prop := BCEdge g [] (fun _ => true)

/-- An order that respects the known edges shows that they have no cycle. -/
theorem acyclic_knownBC [LinearOrder Event] {g : ArgumentedPolyGraph κ} {o : SetOrder} (hg : g.Inv)
    (hbegins : ∀ i, i < g.nNodes → Event.s i < Event.c i) (hknown : ∀ e ∈ g.edgeList o, e.Holds) :
    Precedence.Acyclic g.KnownBC := by
  apply Precedence.acyclic_of_map id
  intro a b hab
  cases hab with
  | begins hi => exact hbegins _ hi
  | known hb => exact before_lt hg hknown hb
  | chosen hm _ => cases hm

/-- Known edges, and every transaction of a session before the next. -/
def SessionBC (g : ArgumentedPolyGraph κ) (a b : Event) : Prop :=
  g.KnownBC a b ∨ ∃ p ∈ g.histories.flatMap (fun txns => txns.zip txns.tail),
    (Event.c p.1, Event.s p.2) = (a, b)

/-- The commit of a transaction and the begin of the next of its session, as numbers. -/
def SessionArc (g : ArgumentedPolyGraph κ) (u v : Nat) : Prop :=
  ∃ txns ∈ g.histories, ∃ p ∈ txns.zip txns.tail, u = ci p.1 ∧ v = si p.2

theorem sessionArc_num {a b : Event} : g.SessionArc a.num b.num ↔
    ∃ p ∈ g.histories.flatMap (fun txns => txns.zip txns.tail),
    (Event.c p.1, Event.s p.2) = (a, b) := by
  constructor
  · rintro ⟨txns, ht, p, hp, hu, hv⟩
    have ha : Event.c p.1 = a := Event.num_injective hu.symm
    have hb : Event.s p.2 = b := Event.num_injective hv.symm
    exact ⟨p, List.mem_flatMap.mpr ⟨txns, ht, hp⟩, by rw [ha, hb]⟩
  · rintro ⟨p, hp, he⟩
    obtain ⟨txns, ht, hp⟩ := List.mem_flatMap.mp hp
    cases he
    exact ⟨txns, ht, p, hp, rfl, rfl⟩

/-- Edges and sessions stay inside the history. -/
structure Bounded (g : ArgumentedPolyGraph κ) : Prop where
  inv : g.Inv
  dst_lt : ∀ {src dst type}, (dst, type) ∈ g.edges src → dst < g.nNodes
  session_lt : ∀ txns ∈ g.histories, ∀ i ∈ txns, i < g.nNodes

structure EdgesInRange (g : ArgumentedPolyGraph κ) : Prop where
  src_lt : ∀ {src dst type}, (dst, type) ∈ g.edges src → src < g.nNodes
  dst_lt : ∀ {src dst type}, (dst, type) ∈ g.edges src → dst < g.nNodes

/-- The part of `Bounded` that sorting needs. -/
structure InRange (g : ArgumentedPolyGraph κ) : Prop extends g.EdgesInRange where
  session_lt : ∀ txns ∈ g.histories, ∀ i ∈ txns, i < g.nNodes

theorem Bounded.inRange (hg : g.Bounded) : g.InRange := ⟨⟨hg.inv.src_lt, hg.dst_lt⟩, hg.session_lt⟩

theorem knownBC_iff (o : SetOrder) (hg : g.EdgesInRange) (a b : Event) : g.KnownBC a b ↔
    (∃ i ∈ List.range g.nNodes, (Event.s i, Event.c i) = (a, b)) ∨
    ∃ e ∈ g.edgeList o, e.before = (a, b) := by
  constructor
  · intro h
    cases h with
    | begins hi => exact .inl ⟨_, List.mem_range.mpr hi, rfl⟩
    | known hb =>
      obtain ⟨src, dst, type, hm, he⟩ := hb
      exact .inr ⟨⟨src, dst, type⟩, (g.mem_edgeList o _).mpr ⟨hg.src_lt hm, hm⟩, he⟩
    | chosen hp _ => cases hp
  · rintro (⟨i, hi, he⟩ | ⟨e, he, hb⟩)
    · cases he
      exact .begins (List.mem_range.mp hi)
    · exact .known ⟨e.src, e.dst, e.type, ((g.mem_edgeList o e).mp he).2, hb⟩

theorem toBCGraph_spec (o : SetOrder) (hg : g.EdgesInRange) :
    ∃ G, g.toBCGraph o = .ok G ∧ G.Shows g.nNodes g.KnownBC := by
  obtain ⟨G₁, h₁, hs₁⟩ := (BCGraph.shows_empty g.nNodes).addAll (l := List.range g.nNodes)
    (fun G i => G.addEdge (si i) (ci i)) (fun i => (Event.s i, Event.c i)) (fun _ _ _ => rfl)
    (fun i hi => ⟨List.mem_range.mp hi, nofun⟩)
  obtain ⟨G₂, h₂, hs₂⟩ := hs₁.addAll (l := g.edgeList o) addBCEdge Edge.before
    (fun e _ G => by
      obtain ⟨src, dst, type⟩ := e
      cases type <;> rfl)
    (fun e he => ⟨e.idx_src ▸ ((g.mem_edgeList o e).mp he).1, e.before_ne⟩)
  refine ⟨G₂, by rw [toBCGraph, h₁, ok_bind, h₂], hs₂.congr (fun a b => ?_)⟩
  rw [knownBC_iff o hg, false_or]

theorem myToBCGraphWSessionOrder_spec (o : SetOrder) (hg : g.InRange) :
    ∃ G, g.myToBCGraphWSessionOrder o = .ok G ∧ G.Shows g.nNodes g.SessionBC := by
  obtain ⟨G₁, h₁, hs₁⟩ := toBCGraph_spec o hg.toEdgesInRange
  obtain ⟨G₂, h₂, hs₂⟩ := hs₁.addAll (l := g.histories.flatMap (fun txns => txns.zip txns.tail))
    (fun G p => G.addEdge (ci p.1) (si p.2)) (fun p => (Event.c p.1, Event.s p.2))
      (fun _ _ _ => rfl)
    (fun p hp => by
      obtain ⟨txns, ht, hp⟩ := List.mem_flatMap.mp hp
      exact ⟨hg.session_lt txns ht p.1 (List.of_mem_zip hp).1, nofun⟩)
  refine ⟨G₂, ?_, hs₂⟩
  rw [myToBCGraphWSessionOrder, h₁, ok_bind, ← h₂]
  exact foldlM_eq_flatMap (fun _ => True) (fun _ _ _ _ => rfl)
    (fun _ _ _ _ _ _ _ _ => trivial) trivial

theorem EdgesInRange.knownBC_lt (hg : g.EdgesInRange) {a b : Event} (h : g.KnownBC a b) :
    a.idx < g.nNodes ∧ b.idx < g.nNodes := by
  cases h with
  | begins hi => exact ⟨hi, hi⟩
  | known hb =>
    obtain ⟨src, dst, type, hm, he⟩ := hb
    have hsrc := Edge.idx_src ⟨src, dst, type⟩
    have hdst := Edge.idx_dst ⟨src, dst, type⟩
    rw [he] at hsrc hdst
    exact ⟨hsrc ▸ hg.src_lt hm, hdst ▸ hg.dst_lt hm⟩
  | chosen hp _ => cases hp

theorem InRange.sessionBC_lt (hg : g.InRange) {a b : Event} (h : g.SessionBC a b) :
    a.idx < g.nNodes ∧ b.idx < g.nNodes := by
  rcases h with h | ⟨p, hp, he⟩
  · exact hg.knownBC_lt h
  · obtain ⟨txns, ht, hp⟩ := List.mem_flatMap.mp hp
    obtain ⟨h₁, h₂⟩ := List.of_mem_zip hp
    cases he
    exact ⟨hg.session_lt txns ht _ h₁, hg.session_lt txns ht _ (List.mem_of_mem_tail h₂)⟩

end ArgumentedPolyGraph

end Building

section Sorting

namespace BCGraph

variable {G : BCGraph} {o : SetOrder}

/-- The in-degrees of all nodes. -/
def Degrees (G : BCGraph) (d : Dict Nat Int) (f : Nat → Int) : Prop :=
  ∀ v, d.get? v = if v ∈ G.nodes then some (f v) else none

theorem Degrees.congr {d : Dict Nat Int} {f f' : Nat → Int} (h : G.Degrees d f)
    (hf : ∀ v, f v = f' v) : G.Degrees d f' :=
  fun v => by rw [h v, hf v]

theorem Degrees.addDegree {d : Dict Nat Int} {f : Nat → Int} (h : G.Degrees d f) (c : Int) {v : Nat}
    (hv : v ∈ G.nodes) :
    ∃ d', addDegree c d v = .ok d' ∧ G.Degrees d' (fun w => f w + if w = v then c else 0) := by
  refine ⟨d.set v (f v + c), by rw [BCGraph.addDegree, h v, if_pos hv], fun w => ?_⟩
  rw [Dict.get?_set, h w]
  by_cases hw : w = v
  · subst hw
    simp [hv]
  · simp [hw]

theorem Degrees.addAll {d : Dict Nat Int} {f : Nat → Int} (h : G.Degrees d f) {l : List Nat}
    (hn : l.Nodup) (hl : ∀ v ∈ l, v ∈ G.nodes) :
    ∃ d', l.foldlM (BCGraph.addDegree 1) d = .ok d' ∧
      G.Degrees d' (fun w => f w + if w ∈ l then 1 else 0) := by
  induction l generalizing d f with
  | nil => exact ⟨d, rfl, by simpa using h⟩
  | cons v l ih =>
    rw [List.nodup_cons] at hn
    obtain ⟨d₁, h₁, hd₁⟩ := h.addDegree 1 (hl v List.mem_cons_self)
    obtain ⟨d₂, h₂, hd₂⟩ := ih hd₁ hn.2 (fun w hw => hl w (List.mem_cons_of_mem v hw))
    refine ⟨d₂, by rw [List.foldlM_cons, h₁, ok_bind, h₂], hd₂.congr (fun w => ?_)⟩
    by_cases hw : w = v
    · subst hw
      simp [hn.1]
    · simp [hw]

theorem degrees_zero (G : BCGraph) :
    G.Degrees (G.nodes.foldl (fun d u => d.set u 0) Dict.empty) (fun _ => 0) := by
  have hfold : ∀ (l : List Nat) (d : Dict Nat Int) (v : Nat),
      (l.foldl (fun d u => d.set u 0) d).get? v = if v ∈ l then some 0 else d.get? v := by
    intro l
    induction l with
    | nil => simp
    | cons u l ih =>
      intro d v
      rw [List.foldl_cons, ih, Dict.get?_set]
      by_cases hv : v = u <;> simp [hv]
  intro v
  rw [hfold, Dict.get?_empty]

/-- Sets of successors that are nodes. -/
structure Closed (G : BCGraph) : Prop where
  nodup : ∀ u, (G.edges u).Nodup
  mem : ∀ u v, v ∈ G.edges u → v ∈ G.nodes

theorem nodup_nodes (G : BCGraph) : G.nodes.Nodup := List.nodup_range'

theorem inDegrees_spec (o : SetOrder) (hG : G.Closed) :
    ∃ d, G.inDegrees o = .ok d ∧ G.Degrees d (fun v => Kahn.pending G.nodes G.edges [] v) := by
  have hfold : ∀ (l : List Nat) (d : Dict Nat Int) (f : Nat → Int), G.Degrees d f →
      ∃ d', l.foldlM (fun d src => (o.iter (G.edges src)).foldlM (addDegree 1) d) d = .ok d' ∧
        G.Degrees d' (fun v => f v + l.countP (fun u => (G.edges u).contains v)) := by
    intro l
    induction l with
    | nil => exact fun d f h => ⟨d, rfl, by simpa using h⟩
    | cons u l ih =>
      intro d f h
      obtain ⟨d₁, h₁, hd₁⟩ := h.addAll ((SetOrder.nodup_iter o _).mpr (hG.nodup u))
        (fun v hv => hG.mem u v ((SetOrder.mem_iter o _ v).mp hv))
      obtain ⟨d₂, h₂, hd₂⟩ := ih d₁ _ hd₁
      refine ⟨d₂, by rw [List.foldlM_cons, h₁, ok_bind, h₂], hd₂.congr (fun v => ?_)⟩
      by_cases hv : v ∈ G.edges u
      · simp only [SetOrder.mem_iter, hv, if_true, List.contains_iff_mem, List.countP_cons]
        omega
      · simp [hv]
  obtain ⟨d, h, hd⟩ := hfold G.nodes _ _ G.degrees_zero
  exact ⟨d, h, hd.congr (fun v => by simp [Kahn.pending])⟩

/-- The successors of an event lose a predecessor; those that had one left join the queue. -/
theorem Degrees.visitAll {d : Dict Nat Int} {f : Nat → Int} (h : G.Degrees d f) {l : List Nat}
    (hn : l.Nodup) (hl : ∀ v ∈ l, v ∈ G.nodes) (Q : List Nat) :
    ∃ d', l.foldlM visit (d, Q) = .ok (d', Q ++ l.filter (fun v => f v = 1)) ∧
      G.Degrees d' (fun w => f w - if w ∈ l then 1 else 0) := by
  induction l generalizing d f Q with
  | nil => exact ⟨d, by simp; rfl, by simpa using h⟩
  | cons v l ih =>
    rw [List.nodup_cons] at hn
    have hv := hl v List.mem_cons_self
    obtain ⟨d₁, h₁, hd₁⟩ := h.addDegree (-1) hv
    have hzero : d₁.get? v = some 0 ↔ f v = 1 := by
      simp only [hd₁ v, if_pos hv, if_true, Option.some.injEq]
      omega
    obtain ⟨d₂, h₂, hd₂⟩ := ih hd₁ hn.2 (fun w hw => hl w (List.mem_cons_of_mem v hw))
      (if d₁.get? v = some 0 then Q ++ [v] else Q)
    have hrest : l.filter (fun w => f w + (if w = v then -1 else 0) = 1) =
        l.filter (fun w => f w = 1) := by
      refine List.filter_congr (fun w hw => ?_)
      have hne : w ≠ v := fun he => hn.1 (he ▸ hw)
      simp [hne]
    refine ⟨d₂, ?_, hd₂.congr (fun w => ?_)⟩
    · rw [List.foldlM_cons, visit, h₁, ok_bind, ok_bind, h₂, hrest]
      by_cases hf : f v = 1
      · simp [hzero, hf]
      · simp [hzero, hf]
    · by_cases hw : w = v
      · subst hw
        simp only [hn.1, if_true, if_false, List.mem_cons, true_or]
        omega
      · simp [hw]

/-- What holds between two events taken from the queue. -/
structure SortInv (G : BCGraph) (st : SortState) : Prop where
  queued : Kahn.Inv G.nodes G.edges st.sortedArr st.Q
  degrees : G.Degrees st.inDegrees (fun v => Kahn.pending G.nodes G.edges st.sortedArr v)

theorem SortInv.length_le {st : SortState} (h : G.SortInv st) :
    st.sortedArr.length + st.Q.length ≤ G.nNodes := by
  have hle := (h.queued.nodup.subperm h.queued.mem).length_le
  rwa [List.length_append, nodes, List.length_range'] at hle

theorem SortInv.step {st : SortState} (h : G.SortInv st) (hG : G.Closed) (hQ : st.Q ≠ []) :
    ∃ st', sortStep o G st = .ok st' ∧ G.SortInv st' ∧
      st'.sortedArr.length = st.sortedArr.length + 1 := by
  obtain ⟨d, Q, done⟩ := st
  cases Q with
  | nil => exact absurd rfl hQ
  | cons u Q =>
    have hq : Kahn.Inv G.nodes G.edges done (u :: Q) := h.queued
    have hdeg : G.Degrees d (fun v => Kahn.pending G.nodes G.edges done v) := h.degrees
    have hu : u ∈ G.nodes := hq.mem u (by simp)
    have hcount : ∀ v, Kahn.pending G.nodes G.edges done v =
        Kahn.pending G.nodes G.edges (done ++ [u]) v + if v ∈ G.edges u then 1 else 0 :=
      Kahn.pending_snoc G.nodup_nodes hu hq.not_mem
    obtain ⟨d', h', hd'⟩ := hdeg.visitAll ((SetOrder.nodup_iter o (G.edges u)).mpr (hG.nodup u))
      (fun v hv => hG.mem u v ((SetOrder.mem_iter o _ v).mp hv)) Q
    have hok : sortStep o G ⟨d, u :: Q, done⟩ = .ok ⟨d', Q ++ (o.iter (G.edges u)).filter
        (fun v => (Kahn.pending G.nodes G.edges done v : Int) = 1), done ++ [u]⟩ := by
      simp only [sortStep, h', ok_bind]
    refine ⟨_, hok, ⟨?_, hd'.congr (fun v => ?_)⟩, by simp⟩
    · refine hq.step G.nodup_nodes
        (List.Nodup.filter _ ((SetOrder.nodup_iter o _).mpr (hG.nodup u))) (fun v => ?_)
      simp only [List.mem_filter, SetOrder.mem_iter, decide_eq_true_eq]
      constructor
      · rintro ⟨hv, hone⟩
        have hc := hcount v
        rw [if_pos hv] at hc
        exact ⟨hG.mem u v hv, hv, by omega⟩
      · rintro ⟨_, hv, hzero⟩
        have hc := hcount v
        rw [if_pos hv] at hc
        exact ⟨hv, by omega⟩
    · simp only [hcount v, SetOrder.mem_iter]
      by_cases hv : v ∈ G.edges u
      · simp [hv]
      · simp [hv]

/-- The sort ends, with no event left in the queue. -/
theorem sortNodes_spec (o : SetOrder) (hG : G.Closed) {fuel : Nat} (hf : G.nNodes < fuel) :
    ∃ arr, G.sortNodes fuel o = fueled (.ok arr) ∧ Kahn.Inv G.nodes G.edges arr [] := by
  obtain ⟨d, hd, hdeg⟩ := inDegrees_spec o hG
  have hstart : G.SortInv ⟨d, G.nodes.filter (fun u => d.get? u = some 0), []⟩ := by
    refine ⟨?_, hdeg⟩
    have hq : G.nodes.filter (fun u => d.get? u = some 0) =
        G.nodes.filter (fun v => Kahn.pending G.nodes G.edges [] v = 0) := by
      refine List.filter_congr (fun v hv => ?_)
      rw [hdeg v, if_pos hv]
      simp
    exact hq ▸ Kahn.inv_start G.nodup_nodes
  have hfuel : G.nNodes - ([] : List Nat).length < fuel := by simpa using hf
  obtain ⟨st, hrun, hinv, hend⟩ :=
    whileLoop_total (fun st => !st.Q.isEmpty) (sortStep o G) G.SortInv
    (fun st => G.nNodes - st.sortedArr.length) (fun st h hc => by
      have hQ : st.Q ≠ [] := by simpa using hc
      obtain ⟨st', hst', hinv', hlen⟩ := h.step (o := o) hG hQ
      have hle := h.length_le
      have hpos := List.length_pos_iff.mpr hQ
      exact ⟨st', hst', hinv', by omega⟩) hstart hfuel
  refine ⟨st.sortedArr, by simp only [sortNodes, hd, fueled_ok_bind, hrun], ?_⟩
  have hQ : st.Q = [] := by simpa using hend
  exact hQ ▸ hinv.queued

end BCGraph

end Sorting

section Ranks

/-- Ranks of all events, smaller than the number of events. -/
structure Ranked (n : Nat) (nid2rank : Dict Nat Nat) : Prop where
  size : nid2rank.entries.length = 2 * n
  lookup : ∀ a : Event, a.idx < n → ∃ r, nid2rank.get? a.num = some r ∧ r < 2 * n

/-- The rank of one event number is below that of another. -/
def RankLt (nid2rank : Dict Nat Nat) (u v : Nat) : Prop :=
  ∃ r r', nid2rank.get? u = some r ∧ nid2rank.get? v = some r' ∧ r < r'

/-- A sort of the numbers of all events along a relation, with its ranks. -/
structure TopoSorted (n : Nat) (R : Event → Event → Prop) (nid2rank : Dict Nat Nat)
    (arr : List Nat) : Prop where
  perm : arr.Perm (List.range' 1 (2 * n))
  inverse : ∀ u r, nid2rank.get? u = some r ↔ arr[r]? = some u
  ascends : ∀ a b, R a b → RankLt nid2rank a.num b.num

theorem TopoSorted.mono {n : Nat} {R S : Event → Event → Prop} {nid2rank : Dict Nat Nat}
    {arr : List Nat}
    (h : TopoSorted n S nid2rank arr) (hR : ∀ a b, R a b → S a b) : TopoSorted n R nid2rank arr :=
  ⟨h.perm, h.inverse, fun a b hab => h.ascends a b (hR a b hab)⟩

theorem TopoSorted.ranked {n : Nat} {R : Event → Event → Prop} {nid2rank : Dict Nat Nat}
    {arr : List Nat}
    (h : TopoSorted n R nid2rank arr)
    (hsize : nid2rank.entries.length = 2 * n) : Ranked n nid2rank where
  size := hsize
  lookup a ha := by
    have hpos := a.num_pos
    have hle := Event.num_le ha
    have hmem : a.num ∈ arr := h.perm.mem_iff.mpr (List.mem_range'_1.mpr (by omega))
    obtain ⟨r, hr, he⟩ := List.getElem_of_mem hmem
    have hlen := h.perm.length_eq
    rw [List.length_range'] at hlen
    exact ⟨r, (h.inverse _ r).mpr (by rw [List.getElem?_eq_getElem hr, he]), by omega⟩

namespace ArgumentedPolyGraph

variable {κ : Type} {g : ArgumentedPolyGraph κ} {o : SetOrder}

/-- A complete sort ranks all events. -/
theorem ranks_spec {G : BCGraph} {n : Nat} {R : Event → Event → Prop} (hs : G.Shows n R)
    (hR : ∀ a b, R a b → a.idx < n ∧ b.idx < n) {arr : List Nat}
    (hK : Kahn.Inv G.nodes G.edges arr []) (hlen : arr.length = G.nNodes) :
    ∃ nid2rank, ranks arr = .ok (nid2rank, arr) ∧ nid2rank.entries.length = 2 * n ∧
      TopoSorted n R nid2rank arr := by
  have hnodup : arr.Nodup := by simpa using hK.nodup
  have hentries :
      (arr.zipIdx.foldl (fun d p => d.set p.1 p.2) (Dict.empty : Dict Nat Nat)).entries =
        arr.zipIdx := by
    rw [Dict.entries_setAll (by simpa [Dict.empty, List.zipIdx_map_fst] using hnodup)]
    rfl
  have hall : ∀ v ∈ G.nodes, v ∈ arr :=
    (hK.length_iff G.nodup_nodes).mp (by rw [hlen, BCGraph.nodes, List.length_range'])
  have hok : ranks arr = .ok (arr.zipIdx.foldl (fun d p => d.set p.1 p.2) Dict.empty, arr) := by
    simp only [ranks, hentries, List.length_zipIdx, require, decide_true, if_true, ok_bind]
  have hinverse : ∀ u r,
      (arr.zipIdx.foldl (fun d p => d.set p.1 p.2) (Dict.empty : Dict Nat Nat)).get? u = some r ↔
      arr[r]? = some u := by
    intro u r
    rw [← Dict.mem_entries, hentries, List.mem_zipIdx_iff_getElem?]
  refine ⟨_, hok, by rw [hentries, List.length_zipIdx, hlen, hs.nNodes], ?_, hinverse,
    fun a b hab => ?_⟩
  · refine ((List.perm_ext_iff_of_nodup hnodup G.nodup_nodes).mpr (fun v => ?_)).trans
      (by rw [BCGraph.nodes, hs.nNodes])
    exact ⟨fun hv => hK.mem v (by simpa using hv), hall v⟩
  · -- the sources of all edges into an event stand before it
    have hb := hs.num_mem (hR a b hab).2
    obtain ⟨l₁, l₂, he⟩ := List.append_of_mem (hall _ hb)
    have ha := hK.sorted l₁ _ l₂ he a.num
      ⟨hs.num_mem (hR a b hab).1, hb, (hs.mem _ _).mpr ⟨a, b, hab, rfl, rfl⟩⟩
    obtain ⟨r, hr, hra⟩ := List.getElem_of_mem ha
    refine ⟨r, l₁.length, (hinverse _ _).mpr ?_, (hinverse _ _).mpr ?_, hr⟩
    · rw [he, List.getElem?_append_left hr, List.getElem?_eq_getElem hr, hra]
    · rw [he]
      simp

/-- One attempt to sort: all events are ranked, or the edges have a cycle. -/
theorem sort_cases {G : BCGraph} {R : Event → Event → Prop} (hs : G.Shows g.nNodes R)
    (hR : ∀ a b, R a b → a.idx < g.nNodes ∧ b.idx < g.nNodes) {fuel : Nat}
    (hf : 2 * g.nNodes < fuel) :
    ∃ arr, G.sortNodes fuel o = fueled (.ok arr) ∧
      ((arr.length = G.nNodes ∧ Acyclic R ∧ ∃ nid2rank, ranks arr = .ok (nid2rank, arr) ∧
          nid2rank.entries.length = 2 * g.nNodes ∧ TopoSorted g.nNodes R nid2rank arr) ∨
        (arr.length ≠ G.nNodes ∧ ¬ Acyclic R)) := by
  have hclosed : G.Closed := by
    refine ⟨hs.nodup, fun u v hv => ?_⟩
    obtain ⟨a, b, hab, _, rfl⟩ := (hs.mem u v).mp hv
    exact hs.num_mem (hR a b hab).2
  obtain ⟨arr, harr, hK⟩ := BCGraph.sortNodes_spec o hclosed (by rw [hs.nNodes]; exact hf)
  have hiff : arr.length = G.nNodes ↔ Acyclic R := by
    have hcomplete := hK.complete_iff G.nodup_nodes
    rwa [hs.acyclic_iff hR, BCGraph.nodes, List.length_range'] at hcomplete
  refine ⟨arr, harr, ?_⟩
  by_cases hlen : arr.length = G.nNodes
  · exact .inl ⟨hlen, hiff.mp hlen, ranks_spec hs hR hK hlen⟩
  · exact .inr ⟨hlen, fun ha => hlen (hiff.mpr ha)⟩

/-- `my_topo_sort` sorts along the known edges, and along the sessions if that is
possible, or it rejects a cycle of known edges. -/
theorem myTopoSort_sorted (o : SetOrder) (hg : g.InRange) (fuel : Nat) (hf : 2 * g.nNodes < fuel) :
    (Acyclic g.KnownBC ∧ ∃ nid2rank arr, g.myTopoSort fuel o = fueled (.ok (nid2rank, arr)) ∧
        nid2rank.entries.length = 2 * g.nNodes ∧ TopoSorted g.nNodes g.KnownBC nid2rank arr ∧
          (Acyclic g.SessionBC → TopoSorted g.nNodes g.SessionBC nid2rank arr)) ∨
      (¬ Acyclic g.KnownBC ∧ g.myTopoSort fuel o = fueled (.error (.reject ""))) := by
  obtain ⟨G₁, h₁, hs₁⟩ := myToBCGraphWSessionOrder_spec o hg
  obtain ⟨arr₁, hsort₁, hcases₁⟩ := sort_cases (o := o) hs₁ (fun _ _ h => hg.sessionBC_lt h) hf
  rcases hcases₁ with ⟨hlen₁, ha, d, hd, hsize, hr⟩ | ⟨hlen₁, hsession⟩
  · refine .inl ⟨ha.mono (fun a b hab => .inl hab), d, arr₁, ?_, hsize,
      hr.mono (fun a b hab => .inl hab), fun _ => hr⟩
    simp only [myTopoSort, h₁, fueled_ok_bind, hsort₁, hlen₁, ne_eq, not_true_eq_false,
      if_false, hd]
  · obtain ⟨G₂, h₂, hs₂⟩ := toBCGraph_spec o hg.toEdgesInRange
    obtain ⟨arr₂, hsort₂, hcases₂⟩ := sort_cases (o := o) hs₂ (fun _ _ h => hg.knownBC_lt h) hf
    rcases hcases₂ with ⟨hlen₂, ha, d, hd, hsize, hr⟩ | ⟨hlen₂, ha⟩
    · refine .inl ⟨ha, d, arr₂, ?_, hsize, hr, fun h => absurd h hsession⟩
      simp only [myTopoSort, h₁, fueled_ok_bind, hsort₁, hlen₁, ne_eq, not_false_eq_true, if_true,
        h₂, hsort₂, hlen₂, not_true_eq_false, if_false, hd]
    · refine .inr ⟨ha, ?_⟩
      simp only [myTopoSort, h₁, fueled_ok_bind, hsort₁, hlen₁, ne_eq, not_false_eq_true, if_true,
        h₂, hsort₂, hlen₂]

/-- `my_topo_sort` ranks all events, or rejects a cycle of known edges. -/
theorem myTopoSort_cases (o : SetOrder) (hg : g.InRange) (fuel : Nat) (hf : 2 * g.nNodes < fuel) :
    (Acyclic g.KnownBC ∧ ∃ nid2rank arr,
      g.myTopoSort fuel o = fueled (.ok (nid2rank, arr)) ∧ Ranked g.nNodes nid2rank) ∨
      (¬ Acyclic g.KnownBC ∧ g.myTopoSort fuel o = fueled (.error (.reject ""))) := by
  rcases myTopoSort_sorted o hg fuel hf with ⟨ha, d, arr, h, hsize, hr, _⟩ | h
  · exact .inl ⟨ha, d, arr, h, hr.ranked hsize⟩
  · exact .inr h

/-- The session edges of the source close a cycle with the known ones exactly if those
of the events do. -/
theorem acyclic_sessionArc {G : BCGraph} (hs : G.Shows g.nNodes g.KnownBC) :
    Acyclic (fun u v => v ∈ G.edges u ∨ g.SessionArc u v) ↔ Acyclic g.SessionBC := by
  constructor
  · intro ha
    refine ha.comap Event.num (fun a b hab => ?_)
    rcases hab with hk | hp
    · exact .inl ((hs.mem _ _).mpr ⟨a, b, hk, rfl, rfl⟩)
    · exact .inr (sessionArc_num.mpr hp)
  · intro ha
    refine ha.comap (fun u : Nat => numEvent u) (fun u v huv => ?_)
    rcases huv with hv | ⟨txns, ht, p, hp, hu, hv⟩
    · obtain ⟨a, b, hab, rfl, rfl⟩ := (hs.mem u v).mp hv
      rw [numEvent_num, numEvent_num]
      exact .inl hab
    · have hu : u = (Event.c p.1).num := hu
      have hv : v = (Event.s p.2).num := hv
      rw [hu, hv, numEvent_num, numEvent_num]
      exact .inr ⟨p, List.mem_flatMap.mpr ⟨txns, ht, hp⟩, rfl⟩

/-- With enough fuel, `my_topo_sort` rejects exactly the graphs whose known edges have
a cycle. It sorts the others along the known edges, and along the sessions if it can. -/
theorem myTopoSort_correct (o : SetOrder) (hg : g.InRange) :
    ∃ G, g.toBCGraph o = .ok G ∧ ∃ enough, ∀ fuel, enough ≤ fuel →
      (¬ Acyclic (fun u v => v ∈ G.edges u) ∧ g.myTopoSort fuel o = fueled (.error (.reject ""))) ∨
        (Acyclic (fun u v => v ∈ G.edges u) ∧
          ∃ nid2rank arr, g.myTopoSort fuel o = fueled (.ok (nid2rank, arr)) ∧
          arr.Perm (List.range' 1 (2 * g.nNodes)) ∧
          (∀ u r, nid2rank.get? u = some r ↔ arr[r]? = some u) ∧
          (∀ u v, v ∈ G.edges u → RankLt nid2rank u v) ∧
          (Acyclic (fun u v => v ∈ G.edges u ∨ g.SessionArc u v) →
            ∀ u v, g.SessionArc u v → RankLt nid2rank u v)) := by
  obtain ⟨G, hG, hs⟩ := toBCGraph_spec o hg.toEdgesInRange
  refine ⟨G, hG, 2 * g.nNodes + 1, fun fuel hf => ?_⟩
  rw [hs.acyclic_edges, acyclic_sessionArc hs]
  rcases myTopoSort_sorted o hg fuel (by omega) with ⟨ha, d, arr, h, _, hr, hsession⟩ | ⟨ha, h⟩
  · refine .inr ⟨ha, d, arr, h, hr.perm, hr.inverse, fun u v hv => ?_, fun hacyc u v huv => ?_⟩
    · obtain ⟨a, b, hab, rfl, rfl⟩ := (hs.mem u v).mp hv
      exact hr.ascends a b hab
    · obtain ⟨txns, ht, p, hp, rfl, rfl⟩ := huv
      exact (hsession hacyc).ascends (.c p.1) (.s p.2)
        (.inr ⟨p, List.mem_flatMap.mpr ⟨txns, ht, hp⟩, rfl⟩)
  · exact .inl ⟨ha, h⟩

theorem edgesInRange_init (n : Nat) : (init n : ArgumentedPolyGraph κ).EdgesInRange where
  src_lt h := by simp [init] at h
  dst_lt h := by simp [init] at h

theorem EdgesInRange.store (hg : g.EdgesInRange) {src dst : Nat} (hsrc : src < g.nNodes)
    (hdst : dst < g.nNodes) (type : EdgeType) : (g.store src dst type).EdgesInRange where
  src_lt {u v t} h := by
    rcases (mem_store g src dst type u (v, t)).mp h with h | ⟨rfl, _⟩
    · exact hg.src_lt h
    · exact hsrc
  dst_lt {u v t} h := by
    rcases (mem_store g src dst type u (v, t)).mp h with h | ⟨_, he⟩
    · exact hg.dst_lt h
    · cases he
      exact hdst

/-- Transaction 1 has read from transaction 2, its successor in their session. -/
def backwards : ArgumentedPolyGraph Nat :=
  { (((init 3).store 0 1 .cb).store 0 2 .cb).store 2 1 .wr with histories := [[1, 2]] }

theorem backwards_inRange : backwards.InRange where
  toEdgesInRange := by
    have h₁ : ((init 3).store 0 1 .cb : ArgumentedPolyGraph Nat).EdgesInRange :=
      (edgesInRange_init 3).store (by decide) (by decide) .cb
    have h₂ : (((init 3).store 0 1 .cb).store 0 2 .cb : ArgumentedPolyGraph Nat).EdgesInRange :=
      h₁.store (by decide) (by decide) .cb
    have h₃ := h₂.store (by decide : 2 < 3) (by decide : 1 < 3) .wr
    exact ⟨h₃.src_lt, h₃.dst_lt⟩
  session_lt := by decide

theorem myTopoSort_correct_backwards :
    ∃ G, backwards.toBCGraph .stored = .ok G ∧ ∃ enough, ∀ fuel, enough ≤ fuel →
      (¬ Acyclic (fun u v => v ∈ G.edges u) ∧
        backwards.myTopoSort fuel .stored = fueled (.error (.reject ""))) ∨
      (Acyclic (fun u v => v ∈ G.edges u) ∧ ∃ nid2rank arr,
        backwards.myTopoSort fuel .stored = fueled (.ok (nid2rank, arr)) ∧
        arr.Perm (List.range' 1 (2 * backwards.nNodes)) ∧
        (∀ u r, nid2rank.get? u = some r ↔ arr[r]? = some u) ∧
        (∀ u v, v ∈ G.edges u → RankLt nid2rank u v) ∧
        (Acyclic (fun u v => v ∈ G.edges u ∨ backwards.SessionArc u v) →
          ∀ u v, backwards.SessionArc u v → RankLt nid2rank u v)) :=
  myTopoSort_correct .stored backwards_inRange

/-- The sort along the session fails, the one along the edges alone does not. -/
example : backwards.myTopoSort 7 .stored = fueled (ranks [1, 2, 5, 6, 3, 4]) := rfl

/-- Transactions 1 and 2 have read from one another. -/
def circular : ArgumentedPolyGraph Nat := backwards.store 1 2 .wr

theorem circular_edgesInRange : circular.EdgesInRange :=
  backwards_inRange.toEdgesInRange.store (by decide) (by decide) .wr

example : circular.myTopoSort 7 .stored = fueled (.error (.reject "")) := rfl

/-- T0 commits before the other transactions begin. -/
theorem circular_initial : ∀ i, 0 < i → i < circular.nNodes →
    ∃ type, type ≠ .rw ∧ (i, type) ∈ circular.edges 0 := by
  intro i hi hn
  have hn : i < 3 := hn
  obtain rfl | rfl : i = 1 ∨ i = 2 := by omega
  · exact ⟨.cb, nofun, by decide⟩
  · exact ⟨.cb, nofun, by decide⟩

end ArgumentedPolyGraph

end Ranks

end Viper
