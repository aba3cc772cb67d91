import Viper.Checkers

/-!
# What the BC checkers decide

Both BC checkers ask for an acyclic choice of edges on the events, with the two
events of T0 merged into one node. That is the same as a linear order of all
events in which T0 comes first, known edges hold, and every constraint holds on
one of its sides. Everything about the builders is stated with this order; the
solver and the node numbering end here.
-/
namespace Viper

open Py GraphSat Precedence

section Order

variable [LinearOrder Event]

def Edge.Holds (e : Edge) : Prop := e.before.1 < e.before.2

theorem Edge.Holds.lt {e : Edge} (he : e.Holds) {a b : Event} (hb : e.before = (a, b)) : a < b := by
  rwa [Edge.Holds, hb] at he

theorem before_lt {κ : Type} {o : SetOrder} {g : ArgumentedPolyGraph κ} (hg : g.Inv)
    (h : ∀ e ∈ g.edgeList o, e.Holds) {a b : Event} (hab : g.Before a b) : a < b := by
  obtain ⟨src, dst, type, hm, he⟩ := hab
  exact (h ⟨src, dst, type⟩ ((g.mem_edgeList o _).mpr ⟨hg.src_lt hm, hm⟩)).lt he

/-- The stored edges hold iff the facts do whose order of events they store. -/
theorem holds_edgeList_iff {κ : Type} (o : SetOrder) {g : ArgumentedPolyGraph κ} (hg : g.Inv)
    {P : Edge → Prop} (hP : ∀ a b, g.Before a b ↔ ∃ e, e.before = (a, b) ∧ P e) :
    (∀ e ∈ g.edgeList o, e.Holds) ↔ ∀ e, P e → e.Holds := by
  constructor
  · intro h e he
    exact before_lt hg h ((hP _ _).mpr ⟨e, rfl, he⟩)
  · intro h e he
    obtain ⟨_, hm⟩ := (g.mem_edgeList o e).mp he
    obtain ⟨e', hb, hp⟩ := (hP _ _).mp ⟨e.src, e.dst, e.type, hm, rfl⟩
    exact (h e' hp).lt hb

/-- An order of the events that starts with T0, respects the known edges and
one side of every constraint. -/
structure Ordered (n : Nat) (edges : List Edge) (cons : List Constraint) : Prop where
  begins : ∀ i, i < n → Event.s i < Event.c i
  initial : ∀ i, 0 < i → i < n → Event.c 0 < Event.s i
  known : ∀ e ∈ edges, e.Holds
  choice : ∀ p ∈ cons, (∀ e ∈ p.1, e.Holds) ∨ (∀ e ∈ p.2, e.Holds)

end Order

/-- The constraints of the plain checker: edge pairs, then pairs of writers. -/
def pairConstraints {κ : Type} (edgePairs : List (Edge × Edge))
    (extWrites : Option (Dict κ (List Nat))) : List Constraint :=
  edgePairs.map (fun p => ([p.1], [p.2])) ++
    (writerPairs extWrites).map (fun q => ([⟨q.1, q.2, .ww⟩], [⟨q.2, q.1, .ww⟩]))

section Nodes

/-- The node of an event, and the event of a node. -/
def Event.node : Event → Nat
  | .s i => bcSi i
  | .c i => bcCi i

def nodeEvent (u : Nat) : Event :=
  if u % 2 = 1 then .s ((u + 1) / 2) else if u = 0 then .s 0 else .c (u / 2)

theorem nodeEvent_bcSi (i : Nat) : nodeEvent (bcSi i) = .s i := by
  by_cases h : i = 0
  · subst h; rfl
  · have h₁ : (2 * i - 1) % 2 = 1 := by omega
    have h₂ : (2 * i - 1 + 1) / 2 = i := by omega
    simp [nodeEvent, bcSi, h, h₁, h₂]

theorem nodeEvent_bcCi {i : Nat} (h : i ≠ 0) : nodeEvent (bcCi i) = .c i := by
  have h₁ : 2 * i ≠ 0 := by omega
  simp [nodeEvent, bcCi, h, h₁]

theorem bcEnds_eq (e : Edge) : bcEnds e = (e.before.1.node, e.before.2.node) := by
  obtain ⟨src, dst, type⟩ := e
  cases type <;> rfl

/-- T0 comes first, its begin before its commit. -/
def Event.level : Event → Nat
  | .s i => if i = 0 then 0 else 2
  | .c i => if i = 0 then 1 else 2

theorem Event.level_of_pos {i : Nat} (h : i ≠ 0) :
    (Event.s i).level = 2 ∧ (Event.c i).level = 2 := by
  simp [Event.level, h]

theorem Edge.level_dst {e : Edge} (h : e.dst ≠ 0) : e.before.2.level = 2 := by
  obtain ⟨src, dst, type⟩ := e
  cases type <;> simp_all [Edge.before, Event.level]

theorem Event.level_le (a : Event) : a.level ≤ 2 := by
  cases a <;> simp only [Event.level] <;> split <;> omega

def Event.idx : Event → Nat
  | .s i => i
  | .c i => i

theorem Edge.idx_src (e : Edge) : e.before.1.idx = e.src := by
  obtain ⟨src, dst, type⟩ := e
  cases type <;> rfl

theorem Edge.idx_dst (e : Edge) : e.before.2.idx = e.dst := by
  obtain ⟨src, dst, type⟩ := e
  cases type <;> rfl

/-- The number of an event in the split numbering. -/
def Event.num : Event → Nat
  | .s i => si i
  | .c i => ci i

def numEvent (u : Int) : Event := if u % 2 = 1 then .s (u / 2).toNat else .c (u / 2 - 1).toNat

theorem numEvent_num (a : Event) : numEvent a.num = a := by
  cases a with
  | s i =>
    have h₁ : ((si i : Nat) : Int) % 2 = 1 := by simp only [si]; omega
    have h₂ : (((si i : Nat) : Int) / 2).toNat = i := by simp only [si]; omega
    simp [numEvent, Event.num, h₁, h₂]
  | c i =>
    have h₁ : ¬ ((ci i : Nat) : Int) % 2 = 1 := by simp only [ci]; omega
    have h₂ : (((ci i : Nat) : Int) / 2 - 1).toNat = i := by simp only [ci]; omega
    simp only [numEvent, Event.num, if_neg h₁, h₂]

theorem Event.num_pos (a : Event) : (0 : Int) < a.num := by
  cases a <;> simp only [Event.num, si, ci] <;> omega

theorem Event.num_le {a : Event} {n : Nat} (h : a.idx < n) : a.num ≤ 2 * n := by
  cases a <;> simp only [Event.num, Event.idx, si, ci] at * <;> omega

theorem Event.exists_num {n u : Nat} (h₁ : 1 ≤ u) (h₂ : u < 1 + 2 * n) :
    ∃ a : Event, a.idx < n ∧ a.num = u := by
  by_cases ho : u % 2 = 1
  · exact ⟨.s (u / 2), by simp only [Event.idx]; omega, by simp only [Event.num, si]; omega⟩
  · exact ⟨.c (u / 2 - 1), by simp only [Event.idx]; omega, by simp only [Event.num, ci]; omega⟩

end Nodes

/-- The edges a choice has to contain. -/
structure Chosen (n : Nat) (edges : List Edge) (cons : List Constraint) (H : Rel) : Prop where
  begins : ∀ i, i < n → i ≠ 0 → H (bcSi i) (bcCi i) 1
  known : ∀ e ∈ edges, H (bcEnds e).1 (bcEnds e).2 1
  choice : ∀ p ∈ cons, (∀ e ∈ p.1, H (bcEnds e).1 (bcEnds e).2 1) ∨
    (∀ e ∈ p.2, H (bcEnds e).1 (bcEnds e).2 1)

section Equivalence

variable {n : Nat} {edges : List Edge} {cons : List Constraint}
  (hE : ∀ e ∈ edges, e.dst ≠ 0) (hC : ∀ p ∈ cons, (∀ e ∈ p.1, e.dst ≠ 0) ∧ ∀ e ∈ p.2, e.dst ≠ 0)
include hE hC

/-- A linear extension of the chosen edges, with T0 put in front. -/
theorem exists_ordered {H : Rel} (hH : Chosen n edges cons H)
    (ha : Acyclic (fun u v => ∃ w, H u v w)) :
    ∃ _ : LinearOrder Event, Ordered n edges cons := by
  let r : Event → Event → Prop := fun a b =>
    a.level < b.level ∨ (a.level = b.level ∧ ∃ w, H a.node b.node w)
  have hr : Acyclic r := acyclic_of_levels Event.level Event.node ha (fun _ _ h => h)
  obtain ⟨lo, hlt⟩ := acyclic_iff_linearOrder.mp hr
  have holds : ∀ e : Edge, e.dst ≠ 0 → H (bcEnds e).1 (bcEnds e).2 1 → e.Holds := by
    intro e hd he
    apply hlt
    rw [bcEnds_eq] at he
    rcases lt_or_eq_of_le (e.before.1.level_le) with hl | hl
    · exact .inl (by rw [Edge.level_dst hd]; exact hl)
    · exact .inr ⟨by rw [Edge.level_dst hd, hl], 1, he⟩
  refine ⟨lo, ?_, ?_, ?_, ?_⟩
  · intro i hi
    by_cases h0 : i = 0
    · subst h0
      exact hlt _ _ (.inl (by simp [Event.level]))
    · obtain ⟨h₁, h₂⟩ := Event.level_of_pos h0
      exact hlt _ _ (.inr ⟨h₁.trans h₂.symm, 1, hH.begins i hi h0⟩)
  · intro i hi _
    exact hlt _ _ (.inl (by simp [Event.level, Nat.pos_iff_ne_zero.mp hi]))
  · exact fun e he => holds e (hE e he) (hH.known e he)
  · intro p hp
    obtain ⟨h₁, h₂⟩ := hC p hp
    rcases hH.choice p hp with h | h
    · exact .inl (fun e he => holds e (h₁ e he) (h e he))
    · exact .inr (fun e he => holds e (h₂ e he) (h e he))

/-- The edges that go up in the order of the events. -/
theorem exists_chosen (hn : 0 < n) [LinearOrder Event] (h : Ordered n edges cons) :
    ∃ H, Chosen n edges cons H ∧ Acyclic (fun u v => ∃ w, H u v w) := by
  have h0 : Event.s 0 < Event.c 0 := h.begins 0 hn
  have up : ∀ e : Edge, e.dst ≠ 0 → e.Holds → nodeEvent (bcEnds e).1 < nodeEvent (bcEnds e).2 := by
    intro e hd he
    obtain ⟨src, dst, type⟩ := e
    have hle : nodeEvent (bcCi src) ≤ Event.c src := by
      by_cases hs : src = 0
      · subst hs; exact le_of_lt h0
      · rw [nodeEvent_bcCi hs]
    have hd' : dst ≠ 0 := hd
    cases type with
    | rw =>
      simp only [bcEnds, nodeEvent_bcSi, nodeEvent_bcCi hd']
      exact he
    | wr | ww | cb =>
      simp only [bcEnds, nodeEvent_bcSi]
      exact lt_of_le_of_lt hle he
  refine ⟨fun u v _ => nodeEvent u < nodeEvent v, ⟨?_, ?_, ?_⟩, ?_⟩
  · intro i hi hi0
    rw [nodeEvent_bcSi, nodeEvent_bcCi hi0]
    exact h.begins i hi
  · exact fun e he => up e (hE e he) (h.known e he)
  · intro p hp
    obtain ⟨h₁, h₂⟩ := hC p hp
    rcases h.choice p hp with hc | hc
    · exact .inl (fun e he => up e (h₁ e he) (hc e he))
    · exact .inr (fun e he => up e (h₂ e he) (hc e he))
  · exact acyclic_of_map nodeEvent (fun _ _ ⟨_, hlt⟩ => hlt)

theorem chosen_iff_ordered (hn : 0 < n) :
    (∃ H, Chosen n edges cons H ∧ Acyclic (fun u v => ∃ w, H u v w)) ↔
      ∃ _ : LinearOrder Event, Ordered n edges cons :=
  ⟨fun ⟨_, hH, ha⟩ => exists_ordered hE hC hH ha, fun ⟨_, h⟩ => exists_chosen hE hC hn h⟩

end Equivalence

section Encoding

variable (β : Nat → Nat)

theorem encodes_assertEdge (p : Nat × Nat) :
    Encodes (fun st => assertEdge st p.1 p.2 1) β (fun H => H p.1 p.2 1) :=
  encodes_edge p.1 p.2 1 β

theorem encodes_bcNode (i : Nat) :
    Encodes (fun st => bcNode st i) β (fun H => i ≠ 0 → H (bcSi i) (bcCi i) 1) := by
  by_cases h : i = 0
  · subst h
    have hn := encodes_addNode β
    exact ⟨hn.keeps, fun hs H => by simpa [bcNode] using hn.within hs H, hn.bvs⟩
  · have hn :=
      ((encodes_addNode β).comp (encodes_addNode β)).comp (encodes_assertEdge β (bcSi i, bcCi i))
    simp only [true_and] at hn
    have he : (fun st => bcNode st i) =
        fun st => assertEdge st.addNode.2.addNode.2 (bcSi i) (bcCi i) 1 := by
      funext st
      simp only [bcNode, if_pos h]
    rw [he]
    exact ⟨hn.keeps, fun hs H => by simpa [h] using hn.within hs H, hn.bvs⟩

theorem forall_bcEdge (es : List (Nat × Nat)) (H : Rel) :
    (∀ u v w, (u, v, w) ∈ es.map bcEdge → H u v w) ↔ ∀ p ∈ es, H p.1 p.2 1 := by
  constructor
  · exact fun h p hp => h _ _ _ (List.mem_map.mpr ⟨p, hp, rfl⟩)
  · intro h u v w hm
    obtain ⟨p, hp, he⟩ := List.mem_map.mp hm
    cases he
    exact h p hp

theorem encodes_assertXorSets (es1 es2 : List (Nat × Nat)) (h1 : es1 ≠ []) (h2 : es2 ≠ []) :
    Encodes (fun st => assertXorSets st es1 es2) β
      (fun H => (∀ p ∈ es1, H p.1 p.2 1) ∨ ∀ p ∈ es2, H p.1 p.2 1) := by
  have hx := encodes_xor (es1.map bcEdge) (es2.map bcEdge) (by simpa using h1) (by simpa using h2)
    (fun m => demands_all m _ β) (fun m => demands_all m _ β)
  have he : (fun st => assertXorSets st es1 es2) =
      fun st => extend st (es1.map bcEdge ++ es2.map bcEdge)
      (.xor (.all ((List.range' st.edges.length (es1.map bcEdge).length).map .lit))
        (.all
          ((List.range' (st.edges.length + (es1.map bcEdge).length) (es2.map bcEdge).length).map
            .lit))) := by
    funext st
    simp [assertXorSets, addEdges_eq, extend, Solver.assert]
  rw [he]
  refine ⟨hx.keeps, fun hs H => ?_, hx.bvs⟩
  rw [hx.within hs, forall_bcEdge, forall_bcEdge, and_true, and_true]

theorem encodes_assertXor (p q : Nat × Nat) :
    Encodes (fun st => assertXor st p q) β (fun H => H p.1 p.2 1 ∨ H q.1 q.2 1) := by
  have hx := encodes_xor ([p].map bcEdge) ([q].map bcEdge) (by simp) (by simp)
    (fun m => demands_lit m β) (fun m => demands_lit m β)
  have he : (fun st => assertXor st p q) = fun st => extend st ([p].map bcEdge ++ [q].map bcEdge)
      (.xor (.lit st.edges.length) (.lit (st.edges.length + ([p].map bcEdge).length))) := by
    funext st
    simp [assertXor, extend, Solver.assert, Solver.addEdge, bcEdge]
  rw [he]
  refine ⟨hx.keeps, fun hs H => ?_, hx.bvs⟩
  rw [hx.within hs, forall_bcEdge, forall_bcEdge]
  simp only [List.mem_singleton, forall_eq, and_true]

/-- Known part of both encodings: the nodes and the edges. -/
theorem encodes_known (n : Nat) (edges : List Edge) :
    Encodes (fun st => edges.foldl (fun st e => assertEdge st (bcEnds e).1 (bcEnds e).2 1)
        ((List.range n).foldl bcNode st)) β
      (fun H => (∀ i ∈ List.range n, i ≠ 0 → H (bcSi i) (bcCi i) 1) ∧
        ∀ e ∈ edges, H (bcEnds e).1 (bcEnds e).2 1) :=
  (Encodes.foldl (fun i _ => encodes_bcNode β i)).comp
    (Encodes.foldl (fun e _ => encodes_assertEdge β (bcEnds e)))

end Encoding

/-- A complete acyclicity encoding without bit-vectors. -/
theorem satisfiable_acyclic {step : Solver → Solver} {P : Rel → Prop} (h : ∀ β, Encodes step β P) :
    Satisfiable ((step newSolver).assert .acyclic) ↔
      ∃ H, P H ∧ Acyclic (fun u v => ∃ w, H u v w) := by
  have hs : Scoped (step newSolver) := (h (fun _ => 0)).keeps scoped_new
  have hsat :=
    satisfiable_iff hs [.acyclic] (fun g hg => List.mem_singleton.mp hg ▸ antitone_acyclic)
  refine hsat.trans ⟨?_, ?_⟩
  · rintro ⟨β, _, H, hw, ha⟩
    exact ⟨H, (((h β).within scoped_new H).mp hw).2, ha _ (List.mem_singleton.mpr rfl)⟩
  · rintro ⟨H, hP, ha⟩
    refine ⟨fun _ => 0, ?_, H, ((h _).within scoped_new H).mpr ⟨within_new H _, hP⟩, ?_⟩
    · intro i w hi
      rw [(h (fun _ => 0)).bvs] at hi
      cases hi
    · intro g hg
      rw [List.mem_singleton.mp hg]
      exact ha

/-- Algorithm 4 looks for an order of the events. -/
theorem MonoBCPolyGraphChecker.satisfiable_check_iff {κ : Type} {n : Nat} {edges : List Edge}
    {edgePairs : List (Edge × Edge)} {extWrites : Option (Dict κ (List Nat))} (hn : 0 < n)
    (hE : ∀ e ∈ edges, e.dst ≠ 0)
    (hC : ∀ p ∈ pairConstraints edgePairs extWrites,
      (∀ e ∈ p.1, e.dst ≠ 0) ∧ ∀ e ∈ p.2, e.dst ≠ 0) :
    Satisfiable (check n edges edgePairs extWrites) ↔
      ∃ _ : LinearOrder Event, Ordered n edges (pairConstraints edgePairs extWrites) := by
  have henc := fun β => ((encodes_known β n edges).comp (Encodes.foldl (l := edgePairs)
    (fun p _ => encodes_assertXor β (bcEnds p.1) (bcEnds p.2)))).comp
      (Encodes.foldl (l := writerPairs extWrites)
      (fun q _ => encodes_assertXor β (bcCi q.1, bcSi q.2) (bcCi q.2, bcSi q.1)))
  rw [← chosen_iff_ordered hE hC hn]
  refine (satisfiable_acyclic henc).trans (exists_congr fun H => and_congr_left fun _ => ?_)
  constructor
  · rintro ⟨⟨⟨hb, hk⟩, hp⟩, hw⟩
    refine ⟨fun i hi h0 => hb i (List.mem_range.mpr hi) h0, hk, fun p hm => ?_⟩
    simp only [pairConstraints, List.mem_append, List.mem_map] at hm
    rcases hm with ⟨q, hq, rfl⟩ | ⟨q, hq, rfl⟩
    · simpa using hp q hq
    · simpa [bcEnds] using hw q hq
  · rintro ⟨hb, hk, hc⟩
    refine ⟨⟨⟨fun i hi h0 => hb i (List.mem_range.mp hi) h0, hk⟩, fun p hp => ?_⟩, fun q hq => ?_⟩
    · simpa using hc ([p.1], [p.2]) (List.mem_append_left _ (List.mem_map.mpr ⟨p, hp, rfl⟩))
    · simpa [bcEnds] using hc _ (List.mem_append_right _ (List.mem_map.mpr ⟨q, hq, rfl⟩))

/-- Algorithms 5, 6 and 8 look for an order of the events. -/
theorem MonoBCPolyGraphCheckerOptimized.satisfiable_check_iff {κ : Type} (o : SetOrder)
    {g : ArgumentedPolyGraph κ} {con : List Constraint} (hn : 0 < g.nNodes)
    (hE : ∀ e ∈ g.edgeList o, e.dst ≠ 0)
    (hC : ∀ p ∈ con, (∀ e ∈ p.1, e.dst ≠ 0) ∧ ∀ e ∈ p.2, e.dst ≠ 0)
    (hne : ∀ p ∈ con, p.1 ≠ [] ∧ p.2 ≠ []) :
    Satisfiable (check o g con) ↔
      ∃ _ : LinearOrder Event, Ordered g.nNodes (g.edgeList o) con := by
  have henc :=
    fun β => (encodes_known β g.nNodes (g.edgeList o)).comp (Encodes.foldl (l := o.iter con)
    (fun p hp => encodes_assertXorSets β (p.1.map bcEnds) (p.2.map bcEnds)
      (by simpa using (hne p ((o.mem_iter con p).mp hp)).1)
      (by simpa using (hne p ((o.mem_iter con p).mp hp)).2)))
  rw [← chosen_iff_ordered hE hC hn]
  refine (satisfiable_acyclic henc).trans (exists_congr fun H => and_congr_left fun _ => ?_)
  constructor
  · rintro ⟨⟨hb, hk⟩, hp⟩
    refine ⟨fun i hi h0 => hb i (List.mem_range.mpr hi) h0, hk, fun p hm => ?_⟩
    simpa using hp p ((o.mem_iter con p).mpr hm)
  · rintro ⟨hb, hk, hc⟩
    refine ⟨⟨fun i hi h0 => hb i (List.mem_range.mp hi) h0, hk⟩, fun p hp => ?_⟩
    simpa using hc p ((o.mem_iter con p).mp hp)

end Viper
