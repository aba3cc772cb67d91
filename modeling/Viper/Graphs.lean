import Viper.History

/-!
# BC-polygraphs (`utils/graphs.py`)

A polygraph stores typed edges between transactions and pairs of edges of
which one is to be chosen. Its meaning lies in the begin and commit events:
`wr`, `ww` and `cb` edges order a commit before a begin, `rw` edges a begin
before a commit.

The builders only ever add edges and pairs, or raise, and which of these they do
never depends on the graph built so far. A phase of a builder is therefore a
script: a list of commands and exceptions. The lemmas at the end say what a
completed script has stored, when a script completes, and when it rejects.
-/
namespace Viper

open Py

inductive EdgeType where
  | wr | ww | rw | cb
  deriving DecidableEq, Repr

structure Edge where
  src : Nat
  dst : Nat
  type : EdgeType
  deriving DecidableEq, Repr

inductive Event where
  | s (i : Nat)
  | c (i : Nat)
  deriving DecidableEq, Repr

/-- The two events an edge of a given type orders. -/
def Edge.before (e : Edge) : Event × Event :=
  match e.type with
  | .rw => (.s e.src, .c e.dst)
  | _ => (.c e.src, .s e.dst)

structure ArgumentedPolyGraph (κ : Type) where
  nNodes : Nat
  edges : Nat → List (Nat × EdgeType)
  edgePairs : List (Edge × Edge)
  edgeTypeLookup : Nat → Dict Nat (List EdgeType)
  extKey2writes : Dict κ (List Nat)
  histories : List (List Nat)

namespace ArgumentedPolyGraph

variable {κ ν μ : Type}

def init (nNodes : Nat) : ArgumentedPolyGraph κ :=
  ⟨nNodes, fun _ => [], [], fun _ => Dict.empty, Dict.empty, []⟩

/-- Only the ids of the session transactions are ever read. -/
def setSessionOrder (G : ArgumentedPolyGraph κ) (histories : List (List (Entry μ))) :
    ArgumentedPolyGraph κ := { G with histories := histories.map (·.map Entry.id) }

/-- The loop of the source only continues: every id is accepted. -/
def isValidNodeId (_ : ArgumentedPolyGraph κ) (_ : List Nat) : Bool := true

def store (G : ArgumentedPolyGraph κ) (src dst : Nat) (type : EdgeType) : ArgumentedPolyGraph κ :=
  { G with
    edges := Function.update G.edges src ((G.edges src).insert (dst, type))
    edgeTypeLookup := Function.update G.edgeTypeLookup src
      ((G.edgeTypeLookup src).set dst (((G.edgeTypeLookup src).getD dst []).insert type)) }

/-- The types that say commit before begin, other than the given one. -/
def otherTypes (type : EdgeType) : List EdgeType := [EdgeType.wr, .cb, .ww].filter (· ≠ type)

def addEdge (G : ArgumentedPolyGraph κ) (src dst : Nat) (type : EdgeType) :
    Except Err (ArgumentedPolyGraph κ) := do
  require (G.isValidNodeId [src, dst]) ""
  require (src ≠ dst) ""
  require (dst ≠ 0) ""
  if G.nNodes ≤ src then .error .keyError
  else if type = .rw then .ok (G.store src dst type)
  else if (otherTypes type).any (fun t => (dst, t) ∈ G.edges src) then .ok G
  else .ok (G.store src dst type)

def addEdges (G : ArgumentedPolyGraph κ) (srcList dstList : List Nat) (type : EdgeType) :
    Except Err (ArgumentedPolyGraph κ) :=
  srcList.foldlM (fun G src => dstList.foldlM (fun G dst => G.addEdge src dst type) G) G

def addEdgePair (G : ArgumentedPolyGraph κ) (src1 dst1 : Nat) (type1 : EdgeType)
    (src2 dst2 : Nat) (type2 : EdgeType) : Except Err (ArgumentedPolyGraph κ) := do
  require (G.isValidNodeId [src1, dst1, src2, dst2]) ""
  require (src1 ≠ dst1 ∧ src2 ≠ dst2) ""
  let e1 : Edge := ⟨src1, dst1, type1⟩
  let e2 : Edge := ⟨src2, dst2, type2⟩
  if (e1, e2) ∈ G.edgePairs ∨ (e2, e1) ∈ G.edgePairs then .ok G
  else .ok { G with edgePairs := G.edgePairs.insert (e1, e2) }

/-- The edge list of `get_4tuples`. -/
def edgeList (o : SetOrder) (G : ArgumentedPolyGraph κ) : List Edge :=
  (List.range G.nNodes).flatMap (fun src => (o.iter (G.edges src)).map (fun p => ⟨src, p.1, p.2⟩))

def get4tuples (o : SetOrder) (G : ArgumentedPolyGraph κ) :
    Nat × List Edge × List (Edge × Edge) × Dict κ (List Nat) :=
  (G.nNodes, edgeList o G, o.iter G.edgePairs, G.extKey2writes)

def setAllWrites [LinearOrder κ] [DecidableEq ν] (o : SetOrder) (G : ArgumentedPolyGraph κ)
    (extWrites : Index κ ν) :
    ArgumentedPolyGraph κ :=
  { G with extKey2writes := extWrites.entries.foldl (fun d p =>
      d.set p.1 (o.iter (p.2.entries.foldl (fun curr q => curr ∪ q.2) []))) G.extKey2writes }

/-- The stored edges, read as an order on events. -/
def Before (G : ArgumentedPolyGraph κ) (a b : Event) : Prop :=
  ∃ src dst type, (dst, type) ∈ G.edges src ∧ (Edge.mk src dst type).before = (a, b)

/-- A pair is stored in one of its two orientations. -/
def HasPair (G : ArgumentedPolyGraph κ) (e f : Edge) : Prop :=
  (e, f) ∈ G.edgePairs ∨ (f, e) ∈ G.edgePairs

/-- Sources exist, nothing points at itself or at the initial transaction. -/
structure Inv (G : ArgumentedPolyGraph κ) : Prop where
  src_lt : ∀ {src dst type}, (dst, type) ∈ G.edges src → src < G.nNodes
  ne : ∀ {src dst type}, (dst, type) ∈ G.edges src → src ≠ dst
  dst_ne : ∀ {src dst type}, (dst, type) ∈ G.edges src → dst ≠ 0

theorem inv_init (n : Nat) : (init n : ArgumentedPolyGraph κ).Inv where
  src_lt h := absurd h List.not_mem_nil
  ne h := absurd h List.not_mem_nil
  dst_ne h := absurd h List.not_mem_nil

theorem Inv.setSessionOrder {G : ArgumentedPolyGraph κ} (h : G.Inv)
    (histories : List (List (Entry μ))) :
    (G.setSessionOrder histories).Inv :=
  ⟨h.src_lt, h.ne, h.dst_ne⟩

theorem HasPair.symm {G : ArgumentedPolyGraph κ} {e f : Edge} (h : G.HasPair e f) : G.HasPair f e :=
  Or.symm h

theorem mem_edgeList (o : SetOrder) (G : ArgumentedPolyGraph κ) (e : Edge) :
    e ∈ edgeList o G ↔ e.src < G.nNodes ∧ (e.dst, e.type) ∈ G.edges e.src := by
  simp only [edgeList, List.mem_flatMap, List.mem_range, List.mem_map, SetOrder.mem_iter]
  constructor
  · rintro ⟨src, hlt, p, hp, rfl⟩
    exact ⟨hlt, hp⟩
  · rintro ⟨hlt, hm⟩
    exact ⟨e.src, hlt, (e.dst, e.type), hm, rfl⟩

end ArgumentedPolyGraph

inductive Cmd where
  | edge : Edge → Cmd
  | pair : Edge → Edge → Cmd
  deriving DecidableEq, Repr

/-- The assertions a command has to pass in a graph of `n` nodes. -/
def Cmd.Valid (n : Nat) : Cmd → Prop
  | .edge e => e.src ≠ e.dst ∧ e.dst ≠ 0 ∧ e.src < n
  | .pair e f => e.src ≠ e.dst ∧ f.src ≠ f.dst

section Run

variable {κ : Type}

def exec (G : ArgumentedPolyGraph κ) : Cmd → Except Err (ArgumentedPolyGraph κ)
  | .edge e => G.addEdge e.src e.dst e.type
  | .pair e f => G.addEdgePair e.src e.dst e.type f.src f.dst f.type

/-- A command to execute, or an exception to raise. -/
abbrev Script := List (Except Err Cmd)

def play (G : ArgumentedPolyGraph κ) (S : Script) : Except Err (ArgumentedPolyGraph κ) :=
  S.foldlM (fun G x => do
    let c ← x
    exec G c) G

@[simp] theorem play_nil (G : ArgumentedPolyGraph κ) : play G [] = .ok G := rfl

theorem play_append (G : ArgumentedPolyGraph κ) (S T : Script) :
    play G (S ++ T) = (play G S >>= fun G' => play G' T) := by
  simp only [play, List.foldlM_append]

theorem play_cons (G : ArgumentedPolyGraph κ) (c : Cmd) (S : Script) :
    play G (.ok c :: S) = (exec G c >>= fun G' => play G' S) := by
  simp only [play, List.foldlM_cons, ok_bind]

@[simp] theorem play_error (G : ArgumentedPolyGraph κ) (e : Err) (S : Script) :
    play G (.error e :: S) = .error e := rfl

@[simp] theorem play_edge (G : ArgumentedPolyGraph κ) (e : Edge) :
    play G [.ok (.edge e)] = G.addEdge e.src e.dst e.type := by
  simp [play, exec]

@[simp] theorem play_pair (G : ArgumentedPolyGraph κ) (e f : Edge) :
    play G [.ok (.pair e f)] = G.addEdgePair e.src e.dst e.type f.src f.dst f.type := by
  simp [play, exec]

/-- A loop whose body plays a script plays their concatenation. -/
theorem foldlM_eq_play {α : Type}
    {step : ArgumentedPolyGraph κ → α → Except Err (ArgumentedPolyGraph κ)}
    {script : α → Script} {l : List α} (h : ∀ a ∈ l, ∀ G, step G a = play G (script a))
    (G : ArgumentedPolyGraph κ) : l.foldlM step G = play G (l.flatMap script) := by
  induction l generalizing G with
  | nil => rfl
  | cons a l ih =>
    rw [List.foldlM_cons, List.flatMap_cons, play_append, h a List.mem_cons_self]
    congr 1
    funext G'
    exact ih (fun b hb => h b (List.mem_cons_of_mem a hb)) G'

/-- A loop that adds one edge or pair an iteration. -/
theorem foldlM_eq_play_map {α : Type}
    {step : ArgumentedPolyGraph κ → α → Except Err (ArgumentedPolyGraph κ)}
    (cmd : α → Cmd) {l : List α} (h : ∀ a ∈ l, ∀ G, step G a = exec G (cmd a))
    (G : ArgumentedPolyGraph κ) : l.foldlM step G = play G (l.map fun a => .ok (cmd a)) := by
  rw [List.map_eq_flatMap]
  refine foldlM_eq_play (fun a ha G => ?_) G
  rw [h a ha G, play_cons]
  simp [play]

/-- A loop that plays a script and computes something else on the side. -/
theorem foldlM_eq_play_with {α σ : Type}
    {step : ArgumentedPolyGraph κ × σ → α → Except Err (ArgumentedPolyGraph κ × σ)}
    {script : α → Script} (side : σ → α → σ) {l : List α}
    (h : ∀ a ∈ l, ∀ G s, step (G, s) a = (play G (script a)).map (fun G => (G, side s a)))
    (G : ArgumentedPolyGraph κ) (s : σ) :
    l.foldlM step (G, s) = (play G (l.flatMap script)).map (fun G => (G, l.foldl side s)) := by
  induction l generalizing G s with
  | nil => rfl
  | cons a l ih =>
    rw [List.foldlM_cons, List.flatMap_cons, play_append, h a List.mem_cons_self]
    cases play G (script a) with
    | error e => rfl
    | ok G' => exact ih (fun b hb => h b (List.mem_cons_of_mem a hb)) G' (side s a)

def edgesScript (srcs dsts : List Nat) (type : EdgeType) : Script :=
  srcs.flatMap fun src => dsts.map fun dst => .ok (.edge ⟨src, dst, type⟩)

theorem addEdges_eq_play (G : ArgumentedPolyGraph κ) (srcs dsts : List Nat) (type : EdgeType) :
    G.addEdges srcs dsts type = play G (edgesScript srcs dsts type) :=
  foldlM_eq_play (fun src _ G => foldlM_eq_play_map (fun dst => .edge ⟨src, dst, type⟩)
    (fun _ _ _ => rfl) G) G

@[simp] theorem mem_edgesScript (srcs dsts : List Nat) (type : EdgeType) (x : Except Err Cmd) :
    x ∈ edgesScript srcs dsts type ↔
      ∃ src ∈ srcs, ∃ dst ∈ dsts, x = .ok (.edge ⟨src, dst, type⟩) := by
  simp [edgesScript, eq_comm]

open ArgumentedPolyGraph

/-- What one command stores. -/
structure Stores (c : Cmd) (G G' : ArgumentedPolyGraph κ) : Prop where
  nNodes : G'.nNodes = G.nNodes
  histories : G'.histories = G.histories
  writes : G'.extKey2writes = G.extKey2writes
  before : ∀ a b, G'.Before a b ↔ G.Before a b ∨ ∃ e, c = .edge e ∧ e.before = (a, b)
  pairs : ∀ e f, G'.HasPair e f ↔ G.HasPair e f ∨ c = .pair e f ∨ c = .pair f e
  inv : G.Inv → G'.Inv

theorem mem_store (G : ArgumentedPolyGraph κ) (src dst : Nat) (type : EdgeType) (u : Nat)
    (p : Nat × EdgeType) :
    p ∈ (G.store src dst type).edges u ↔ p ∈ G.edges u ∨ (u = src ∧ p = (dst, type)) := by
  by_cases h : u = src
  · subst h
    simp only [store, Function.update_self, List.mem_insert_iff, true_and]
    exact Or.comm
  · simp [store, h]

theorem before_store (G : ArgumentedPolyGraph κ) (src dst : Nat) (type : EdgeType) (a b : Event) :
    (G.store src dst type).Before a b ↔ G.Before a b ∨ (Edge.mk src dst type).before = (a, b) := by
  simp only [Before, mem_store]
  constructor
  · rintro ⟨u, v, t, h | ⟨rfl, h⟩, he⟩
    · exact .inl ⟨u, v, t, h, he⟩
    · cases h
      exact .inr he
  · rintro (⟨u, v, t, h, he⟩ | he)
    · exact ⟨u, v, t, .inl h, he⟩
    · exact ⟨src, dst, type, .inr ⟨rfl, rfl⟩, he⟩

theorem inv_store {G : ArgumentedPolyGraph κ} (h : G.Inv) {src dst : Nat} {type : EdgeType}
    (hlt : src < G.nNodes) (hne : src ≠ dst) (hd : dst ≠ 0) : (G.store src dst type).Inv where
  src_lt hm := by
    rcases (mem_store ..).mp hm with hm | ⟨rfl, _⟩
    · exact h.src_lt hm
    · exact hlt
  ne hm := by
    rcases (mem_store ..).mp hm with hm | ⟨rfl, he⟩
    · exact h.ne hm
    · cases he; exact hne
  dst_ne hm := by
    rcases (mem_store ..).mp hm with hm | ⟨_, he⟩
    · exact h.dst_ne hm
    · cases he; exact hd

theorem stores_store {G : ArgumentedPolyGraph κ} {src dst : Nat} {type : EdgeType}
    (hv : (Cmd.edge ⟨src, dst, type⟩).Valid G.nNodes) :
    Stores (.edge ⟨src, dst, type⟩) G (G.store src dst type) where
  nNodes := rfl
  histories := rfl
  writes := rfl
  before a b := by
    rw [before_store]
    refine or_congr Iff.rfl ⟨fun h => ⟨_, rfl, h⟩, ?_⟩
    rintro ⟨e, he, h⟩
    cases he
    exact h
  pairs e f := by simp [HasPair, store]
  inv h := inv_store h hv.2.2 hv.1 hv.2.1

theorem any_otherTypes {G : ArgumentedPolyGraph κ} {src dst : Nat} {type : EdgeType} :
    (otherTypes type).any (fun t => (dst, t) ∈ G.edges src) ↔
      ∃ t, t ≠ .rw ∧ t ≠ type ∧ (dst, t) ∈ G.edges src := by
  simp only [otherTypes, List.any_eq_true, List.mem_filter, decide_eq_true_eq]
  constructor
  · rintro ⟨t, ⟨ht, hne⟩, hm⟩
    refine ⟨t, ?_, hne, hm⟩
    rintro rfl
    simp at ht
  · rintro ⟨t, hrw, hne, hm⟩
    refine ⟨t, ⟨?_, hne⟩, hm⟩
    cases t with
    | rw => exact absurd rfl hrw
    | wr | ww | cb => simp

theorem before_of_ne_rw {src dst : Nat} {type : EdgeType} (h : type ≠ .rw) :
    (Edge.mk src dst type).before = (.c src, .s dst) := by
  cases type <;> first | rfl | exact absurd rfl h

/-- An edge dropped as a duplicate orders the same two events as the stored one. -/
theorem before_of_otherTypes {G : ArgumentedPolyGraph κ} {src dst : Nat} {type : EdgeType}
    (h : (otherTypes type).any (fun t => (dst, t) ∈ G.edges src)) :
    G.Before (.c src) (.s dst) := by
  obtain ⟨t, ht, _, hm⟩ := any_otherTypes.mp h
  exact ⟨src, dst, t, hm, before_of_ne_rw ht⟩

theorem addEdge_spec {G : ArgumentedPolyGraph κ} {src dst : Nat} {type : EdgeType}
    (hv : (Cmd.edge ⟨src, dst, type⟩).Valid G.nNodes) :
    ∃ G', G.addEdge src dst type = .ok G' ∧ Stores (.edge ⟨src, dst, type⟩) G G' := by
  obtain ⟨hne, hd, hlt⟩ := hv
  simp only [addEdge, isValidNodeId, require, hne, hd, ne_eq, not_false_eq_true, decide_true,
    if_true, ok_bind, Nat.not_le.mpr hlt, if_false]
  by_cases ht : type = .rw
  · exact ⟨_, by rw [if_pos ht], stores_store ⟨hne, hd, hlt⟩⟩
  · rw [if_neg ht]
    split
    · rename_i hdup
      have hb := before_of_otherTypes hdup
      refine ⟨G, rfl, rfl, rfl, rfl, fun a b => ?_, fun e f => by simp, id⟩
      refine ⟨Or.inl, ?_⟩
      rintro (h | ⟨e, he, h⟩)
      · exact h
      · cases he
        rw [before_of_ne_rw ht] at h
        cases h
        exact hb
    · exact ⟨_, rfl, stores_store ⟨hne, hd, hlt⟩⟩

theorem addEdgePair_spec {G : ArgumentedPolyGraph κ} {e f : Edge}
    (hv : (Cmd.pair e f).Valid G.nNodes) :
    ∃ G', G.addEdgePair e.src e.dst e.type f.src f.dst f.type = .ok G' ∧
      Stores (.pair e f) G G' := by
  obtain ⟨h₁, h₂⟩ := hv
  simp only [addEdgePair, isValidNodeId, require, h₁, h₂, ne_eq, not_false_eq_true, and_self,
    decide_true, if_true, ok_bind]
  split
  · rename_i hm
    refine ⟨G, rfl, rfl, rfl, rfl, fun a b => by simp, fun e' f' => ?_, id⟩
    refine ⟨Or.inl, ?_⟩
    rintro (h | h | h)
    · exact h
    · cases h; exact hm
    · cases h; exact hm.symm
  · refine ⟨_, rfl, rfl, rfl, rfl, fun a b => by simp [Before], fun e' f' => ?_, fun h => ?_⟩
    · simp only [HasPair, List.mem_insert_iff, Prod.mk.injEq, Cmd.pair.injEq]
      tauto
    · exact ⟨h.src_lt, h.ne, h.dst_ne⟩

theorem exec_spec {G : ArgumentedPolyGraph κ} {c : Cmd} (hv : c.Valid G.nNodes) :
    ∃ G', exec G c = .ok G' ∧ Stores c G G' := by
  cases c with
  | edge e => exact addEdge_spec hv
  | pair e f => exact addEdgePair_spec hv

/-- A command that does not pass its assertions is no verdict. -/
theorem exec_error {G : ArgumentedPolyGraph κ} {c : Cmd} (hv : ¬ c.Valid G.nNodes) :
    ∃ e, exec G c = .error e ∧ ∀ msg, e ≠ .reject msg := by
  cases c with
  | edge e =>
    simp only [Cmd.Valid, not_and_or, not_not] at hv
    by_cases h₁ : e.src = e.dst
    · exact ⟨.assertion "", by simp [exec, addEdge, isValidNodeId, require, h₁], by simp⟩
    · by_cases h₂ : e.dst = 0
      · exact ⟨.assertion "", by simp [exec, addEdge, isValidNodeId, require, h₂, h₂ ▸ h₁], by simp⟩
      · have h₃ : G.nNodes ≤ e.src := by
          rcases hv with h | h | h
          · exact absurd h h₁
          · exact absurd h h₂
          · exact Nat.not_lt.mp h
        exact ⟨.keyError, by simp [exec, addEdge, isValidNodeId, require, h₁, h₂, h₃], by simp⟩
  | pair e f =>
    simp only [Cmd.Valid, not_and_or, not_not] at hv
    refine ⟨.assertion "", ?_, by simp⟩
    have hb : ¬ (e.src ≠ e.dst ∧ f.src ≠ f.dst) := by tauto
    simp [exec, addEdgePair, isValidNodeId, require, hb]

/-- What a completed script stores, whatever was dropped as a duplicate. -/
structure Played (S : Script) (G G' : ArgumentedPolyGraph κ) : Prop where
  nNodes : G'.nNodes = G.nNodes
  histories : G'.histories = G.histories
  writes : G'.extKey2writes = G.extKey2writes
  before : ∀ a b, G'.Before a b ↔ G.Before a b ∨ ∃ e, .ok (.edge e) ∈ S ∧ e.before = (a, b)
  pairs : ∀ e f, G'.HasPair e f ↔ G.HasPair e f ∨ .ok (.pair e f) ∈ S ∨ .ok (.pair f e) ∈ S
  inv : G.Inv → G'.Inv

theorem played_nil (G : ArgumentedPolyGraph κ) : Played [] G G :=
  ⟨rfl, rfl, rfl, fun a b => by simp, fun e f => by simp, id⟩

theorem Stores.played {c : Cmd} {S : Script} {G₁ G₂ G₃ : ArgumentedPolyGraph κ}
    (h : Stores c G₁ G₂) (h' : Played S G₂ G₃) : Played (.ok c :: S) G₁ G₃ where
  nNodes := h'.nNodes.trans h.nNodes
  histories := h'.histories.trans h.histories
  writes := h'.writes.trans h.writes
  before a b := by
    rw [h'.before, h.before, or_assoc]
    refine or_congr Iff.rfl ⟨?_, ?_⟩
    · rintro (⟨e, rfl, hb⟩ | ⟨e, he, hb⟩)
      · exact ⟨e, List.mem_cons_self, hb⟩
      · exact ⟨e, List.mem_cons_of_mem _ he, hb⟩
    · rintro ⟨e, he, hb⟩
      rcases List.mem_cons.mp he with he | he
      · exact .inl ⟨e, (Except.ok.inj he).symm, hb⟩
      · exact .inr ⟨e, he, hb⟩
  pairs e f := by
    rw [h'.pairs, h.pairs, List.mem_cons, List.mem_cons, Except.ok.injEq, Except.ok.injEq,
      @eq_comm _ c, @eq_comm _ c]
    tauto
  inv hi := h'.inv (h.inv hi)

/-- A script of valid commands completes. -/
theorem play_spec {G : ArgumentedPolyGraph κ} {S : Script}
    (hv : ∀ x ∈ S, ∃ c, x = .ok c ∧ c.Valid G.nNodes) :
    ∃ G', play G S = .ok G' ∧ Played S G G' := by
  induction S generalizing G with
  | nil => exact ⟨G, rfl, played_nil G⟩
  | cons x S ih =>
    obtain ⟨c, rfl, hc⟩ := hv x List.mem_cons_self
    obtain ⟨G₁, h₁, hs⟩ := exec_spec hc
    obtain ⟨G₂, h₂, hp⟩ := ih (G := G₁) (fun y hy => hs.nNodes ▸ hv y (List.mem_cons_of_mem _ hy))
    refine ⟨G₂, ?_, hs.played hp⟩
    rw [play_cons, h₁, ok_bind]
    exact h₂

/-- A completed script held valid commands only. -/
theorem play_valid {G G' : ArgumentedPolyGraph κ} {S : Script} (h : play G S = .ok G') :
    ∀ x ∈ S, ∃ c, x = .ok c ∧ c.Valid G.nNodes := by
  induction S generalizing G with
  | nil => intro x hx; cases hx
  | cons x S ih =>
    cases x with
    | error e => cases h
    | ok c =>
      rw [play_cons, bind_eq_ok] at h
      obtain ⟨G₁, h₁, h₂⟩ := h
      have hc : c.Valid G.nNodes := by
        by_contra hn
        obtain ⟨e, he, _⟩ := exec_error hn
        rw [he] at h₁
        cases h₁
      obtain ⟨G₁', h₁', hs⟩ := exec_spec hc
      obtain rfl : G₁' = G₁ := Except.ok.inj (h₁'.symm.trans h₁)
      intro y hy
      rcases List.mem_cons.mp hy with rfl | hy
      · exact ⟨c, rfl, hc⟩
      · exact hs.nNodes ▸ ih h₂ y hy

theorem play_played {G G' : ArgumentedPolyGraph κ} {S : Script} (h : play G S = .ok G') :
    Played S G G' := by
  obtain ⟨G₁, h₁, hr⟩ := play_spec (play_valid h)
  obtain rfl : G₁ = G' := Except.ok.inj (h₁.symm.trans h)
  exact hr

/-- Where all commands are valid, an exception of the script is raised. -/
theorem play_raises {G : ArgumentedPolyGraph κ} {S : Script}
    (hv : ∀ c, .ok c ∈ S → c.Valid G.nNodes) {e : Err} (he : .error e ∈ S) :
    ∃ e', play G S = .error e' ∧ .error e' ∈ S := by
  induction S generalizing G with
  | nil => cases he
  | cons x S ih =>
    cases x with
    | error e' => exact ⟨e', rfl, List.mem_cons_self⟩
    | ok c =>
      have hm : .error e ∈ S := (List.mem_cons.mp he).resolve_left (by simp)
      obtain ⟨G₁, h₁, hs⟩ := exec_spec (hv c List.mem_cons_self)
      obtain ⟨e', h₂, hm'⟩ :=
        ih (G := G₁) (fun d hd => hs.nNodes ▸ hv d (List.mem_cons_of_mem _ hd)) hm
      exact ⟨e', by rw [play_cons, h₁, ok_bind, h₂], List.mem_cons_of_mem _ hm'⟩

/-- A rejection comes from the script, never from a command. -/
theorem play_reject {G : ArgumentedPolyGraph κ} {S : Script} {msg : String}
    (h : play G S = .error (.reject msg)) : .error (.reject msg) ∈ S := by
  induction S generalizing G with
  | nil => cases h
  | cons x S ih =>
    cases x with
    | error e =>
      cases h
      exact List.mem_cons_self
    | ok c =>
      rw [play_cons, bind_eq_error] at h
      rcases h with h | ⟨G₁, _, h₂⟩
      · by_cases hc : c.Valid G.nNodes
        · obtain ⟨G₁, h₁, _⟩ := exec_spec hc
          rw [h₁] at h
          cases h
        · obtain ⟨e, he, hne⟩ := exec_error hc
          rw [he] at h
          exact absurd (Except.error.inj h) (hne msg)
      · exact List.mem_cons_of_mem _ (ih h₂)

end Run

end Viper
