import Viper.TopoSort
import Viper.Lib.Search

/-!
# Searching the event graph for a cycle (`BCGraph.my_detect_cycle`, `detect_cycle_graph_color`)

The first search backtracks and starts at the begin event of T0 only. The second
colours the events it has finished and starts at every event left. Both recur
once for every event on the way, so the number of events bounds the depth.
-/
namespace Viper

open Py Precedence Relation Search

namespace BCGraph

/-- `self.edges[u]` -/
def successors (G : BCGraph) (u : Nat) : Except Err (List Nat) :=
  if u ∈ G.nodes then .ok (G.edges u) else .error .keyError

structure DfsState where
  visited : List Bool
  path : List Nat
  cycles : List (List Nat)

def dfs (o : SetOrder) (G : BCGraph) : Nat → Nat → DfsState → ExceptT Err Option DfsState
  | 0, _, _ => ExceptT.mk none
  | fuel + 1, u, st =>
    match st.visited[u]? with
    | none => fueled (.error .indexError)
    | some true =>
      match st.path.idxOf? u with
      | none => fueled (.error .valueError)
      | some uLastPos => fueled (.ok { st with cycles := st.cycles.insert (st.path.drop uLastPos) })
    | some false => do
      let vs ← fueled (G.successors u)
      let st ← (o.iter vs).foldlM (fun st v => dfs o G fuel v st)
        ⟨st.visited.set u true, st.path ++ [u], st.cycles⟩
      fueled (.ok ⟨st.visited.set u false, st.path.dropLast, st.cycles⟩)

def myDetectCycle (o : SetOrder) (G : BCGraph) (fuel : Nat) : ExceptT Err Option Bool := do
  let st ← G.dfs o fuel 1 ⟨List.replicate (G.nNodes + 1) false, [], []⟩
  fueled (.ok (decide (0 < st.cycles.length)))

/-- The colours 0, 1 and 2. -/
inductive Color where
  | white | grey | black
  deriving DecidableEq, Repr

structure ColorState where
  color : List Color
  pred : List Int

/-- `color[x] == c` -/
def ColorState.Is (st : ColorState) (x : Nat) (c : Color) : Prop := st.color[x]? = some c

/-- `color[u] = c` -/
def ColorState.paint (st : ColorState) (u : Nat) (c : Color) : Except Err ColorState :=
  if u < st.color.length then .ok { st with color := st.color.set u c } else .error .indexError

/-- `pred[v] = u` -/
def ColorState.setPred (st : ColorState) (v u : Nat) : Except Err ColorState :=
  if v < st.pred.length then .ok { st with pred := st.pred.set v u } else .error .indexError

/-- The loop over the successors of `u`, with its early returns. -/
def scanColor (search : Nat → ColorState → ExceptT Err Option (Bool × ColorState)) (u : Nat) :
    List Nat → ColorState → ExceptT Err Option (Bool × ColorState)
  | [], st => do
    let st ← fueled (st.paint u .black)
    fueled (.ok (false, st))
  | v :: vs, st =>
    match st.color[v]? with
    | none => fueled (.error .indexError)
    | some .grey => fueled (.ok (true, st))
    | some .black => scanColor search u vs st
    | some .white => do
      let (found, st) ← search v st
      if found then do
        let st ← fueled (st.setPred v u)
        fueled (.ok (true, st))
      else scanColor search u vs st

def dfsGraphColor (o : SetOrder) (G : BCGraph) :
    Nat → Nat → ColorState → ExceptT Err Option (Bool × ColorState)
  | 0, _, _ => ExceptT.mk none
  | fuel + 1, u, st => do
    let st ← fueled (st.paint u .grey)
    let vs ← fueled (G.successors u)
    scanColor (dfsGraphColor o G fuel) u (o.iter vs) st

/-- The loop of `detect_cycle_graph_color`, over the events still to come. -/
def detectFrom (o : SetOrder) (G : BCGraph) (fuel : Nat) :
    List Nat → ColorState → ExceptT Err Option Bool
  | [], _ => fueled (.ok false)
  | u :: us, st =>
    match st.color[u]? with
    | none => fueled (.error .indexError)
    | some .white => do
      let (r, st) ← G.dfsGraphColor o fuel u st
      if r then fueled (.ok true) else detectFrom o G fuel us st
    | some _ => detectFrom o G fuel us st

def detectCycleGraphColor (o : SetOrder) (G : BCGraph) (fuel : Nat) : ExceptT Err Option Bool :=
  G.detectFrom o fuel G.nodes
    ⟨List.replicate (G.nNodes + 1) .white, List.replicate (G.nNodes + 1) (-1)⟩

variable {G : BCGraph} {o : SetOrder}

/-- The edges of the graph, as a relation. -/
abbrev Arc (G : BCGraph) (u v : Nat) : Prop := v ∈ G.edges u

theorem successors_of_mem {u : Nat} (hu : u ∈ G.nodes) :
    G.successors u = .ok (G.edges u) := if_pos hu

section Backtracking

/-- The events marked as visited are those on the path. -/
structure OnPath (G : BCGraph) (st : DfsState) : Prop where
  length : st.visited.length = G.nNodes + 1
  marked : ∀ v, st.visited[v]? = some true ↔ v ∈ st.path
  nodup : st.path.Nodup
  mem : ∀ v ∈ st.path, v ∈ G.nodes

theorem OnPath.cycles {st : DfsState} (h : G.OnPath st) (cycles : List (List Nat)) :
    G.OnPath { st with cycles := cycles } := ⟨h.length, h.marked, h.nodup, h.mem⟩

theorem OnPath.lt {st : DfsState} (h : G.OnPath st) {u : Nat} (hu : u ∈ G.nodes) :
    u < st.visited.length := by
  have hle := mem_nodes.mp hu
  have hlen := h.length
  omega

theorem OnPath.unvisited {st : DfsState} (h : G.OnPath st) {u : Nat} (hu : u ∈ G.nodes)
    (hp : u ∉ st.path) :
    st.visited[u]? = some false := by
  have hlt := h.lt hu
  have hnot : st.visited[u]? ≠ some true := fun he => hp ((h.marked u).mp he)
  rw [List.getElem?_eq_getElem hlt] at hnot ⊢
  cases hb : st.visited[u] with
  | true => exact absurd (by rw [hb]) hnot
  | false => rfl

theorem OnPath.push {st : DfsState} (h : G.OnPath st) {u : Nat} (hu : u ∈ G.nodes)
    (hn : u ∉ st.path) :
    G.OnPath ⟨st.visited.set u true, st.path ++ [u], st.cycles⟩ where
  length := by
    rw [List.length_set]
    exact h.length
  marked v := by
    have hlt := h.lt hu
    rw [List.getElem?_set, List.mem_append, List.mem_singleton]
    by_cases hv : u = v
    · subst hv
      simp [hlt]
    · rw [if_neg hv, h.marked]
      simp [Ne.symm hv]
  nodup := List.nodup_append.mpr ⟨h.nodup, List.nodup_singleton u, fun a ha b hb he => by
    rw [List.mem_singleton.mp hb] at he
    exact hn (he ▸ ha)⟩
  mem v hv := by
    rcases List.mem_append.mp hv with hv | hv
    · exact h.mem v hv
    · exact List.mem_singleton.mp hv ▸ hu

theorem OnPath.length_le {st : DfsState} (h : G.OnPath st) : st.path.length ≤ G.nNodes := by
  have hle := (h.nodup.subperm h.mem).length_le
  rwa [nodes, List.length_range'] at hle

/-- The successors are searched one after the other; only the cycles change. -/
theorem searchAll (f : DfsState → Nat → ExceptT Err Option DfsState) (st : DfsState)
    {P : Nat → Prop} {vs : List Nat}
    (hf : ∀ v ∈ vs, ∀ cycles, ∃ cycles',
      f { st with cycles := cycles } v = fueled (.ok { st with cycles := cycles' }) ∧
      (cycles' ≠ [] ↔ cycles ≠ [] ∨ P v)) (cycles : List (List Nat)) :
    ∃ cycles', vs.foldlM f { st with cycles := cycles } =
      fueled (.ok { st with cycles := cycles' }) ∧
      (cycles' ≠ [] ↔ cycles ≠ [] ∨ ∃ v ∈ vs, P v) := by
  induction vs generalizing cycles with
  | nil => exact ⟨cycles, rfl, by simp⟩
  | cons v vs ih =>
    obtain ⟨cycles₁, h₁, hc₁⟩ := hf v List.mem_cons_self cycles
    obtain ⟨cycles₂, h₂, hc₂⟩ := ih (fun w hw => hf w (List.mem_cons_of_mem v hw)) cycles₁
    refine ⟨cycles₂, by rw [List.foldlM_cons, h₁, fueled_ok_bind, h₂], ?_⟩
    rw [hc₂, hc₁, or_assoc, List.exists_mem_cons_iff]

/-- Leaving an event undoes the mark. -/
theorem set_back {l : List Bool} {u : Nat} (h : l[u]? = some false) :
    (l.set u true).set u false = l := by
  obtain ⟨hlt, _⟩ := List.getElem?_eq_some_iff.mp h
  rw [List.set_set]
  apply List.ext_getElem?
  intro v
  rw [List.getElem?_set]
  by_cases hv : u = v
  · subst hv
    rw [if_pos rfl, if_pos hlt, h]
  · rw [if_neg hv]

/-- The recursion is on the events that are not on the path. It restores the path,
and it adds a cycle exactly if there is one to find. -/
theorem dfs_spec (hG : G.Closed) (fuel : Nat) :
    ∀ u st, u ∈ G.nodes → G.OnPath st → G.nNodes - st.path.length < fuel →
    ∃ cycles, G.dfs o fuel u st = fueled (.ok { st with cycles := cycles }) ∧
      (cycles ≠ [] ↔ st.cycles ≠ [] ∨ Finds G.Arc st.path u) := by
  induction fuel with
  | zero => intro u st _ _ hf; omega
  | succ fuel ih =>
    intro u st hu h hf
    by_cases hp : u ∈ st.path
    · have hvis : st.visited[u]? = some true := (h.marked u).mpr hp
      obtain ⟨i, hi⟩ : ∃ i, st.path.idxOf? u = some i := by
        cases hi : st.path.idxOf? u with
        | none => exact absurd hp (List.idxOf?_eq_none_iff.mp hi)
        | some i => exact ⟨i, rfl⟩
      refine ⟨st.cycles.insert (st.path.drop i), by simp only [dfs, hvis, hi], ?_⟩
      have hne : st.cycles.insert (st.path.drop i) ≠ [] := List.ne_nil_of_mem List.mem_insert_self
      simp only [hne, ne_eq, not_false_eq_true, true_iff]
      exact .inr (.hit hp)
    · have hvis := h.unvisited hu hp
      have hpush := h.push hu hp
      have hle := hpush.length_le
      rw [List.length_append, List.length_singleton] at hle
      obtain ⟨cycles, hrun, hc⟩ := searchAll (P := Finds G.Arc (st.path ++ [u]))
        (fun st v => G.dfs o fuel v st) ⟨st.visited.set u true, st.path ++ [u], st.cycles⟩
        (fun v (hv : v ∈ o.iter (G.edges u)) cycles => by
          refine ih v _ (hG.mem u v ((SetOrder.mem_iter o _ v).mp hv)) (hpush.cycles cycles) ?_
          rw [List.length_append, List.length_singleton]
          omega) st.cycles
      have hback := set_back hvis
      refine ⟨cycles, ?_, ?_⟩
      · simp only [dfs, hvis, successors_of_mem hu, fueled_ok_bind, hrun, hback,
          List.dropLast_concat]
      · rw [hc]
        refine or_congr_right ?_
        constructor
        · rintro ⟨v, hv, hfind⟩
          exact .step hp ((SetOrder.mem_iter o _ v).mp hv) hfind
        · intro hfind
          cases hfind with
          | hit hm => exact absurd hm hp
          | step _ huv hv => exact ⟨_, (SetOrder.mem_iter o _ _).mpr huv, hv⟩

/-- Started at an event that reaches all cycles, the backtracking search finds one if
there is one. -/
theorem myDetectCycle_spec (o : SetOrder) (hG : G.Closed) (h1 : 1 ∈ G.nodes)
    (hr : ∀ w, TransGen G.Arc w w → ReflTransGen G.Arc 1 w) {fuel : Nat} (hf : G.nNodes < fuel) :
    ∃ r, G.myDetectCycle o fuel = fueled (.ok r) ∧ (r = true ↔ ¬ Acyclic G.Arc) := by
  have hstart : G.OnPath ⟨List.replicate (G.nNodes + 1) false, [], []⟩ := by
    refine ⟨List.length_replicate, fun v => ?_, List.nodup_nil,
      fun v hv => absurd hv List.not_mem_nil⟩
    simp [List.getElem?_replicate]
  obtain ⟨cycles, hrun, hc⟩ := dfs_spec (o := o) hG fuel 1 _ h1 hstart (by simpa using hf)
  refine ⟨decide (0 < cycles.length), by simp only [myDetectCycle, hrun, fueled_ok_bind], ?_⟩
  rw [decide_eq_true_eq, List.length_pos_iff, hc, ← finds_iff hr]
  simp

end Backtracking

section Coloring

theorem ColorState.is_set {st : ColorState} {u : Nat} (hu : u < st.color.length) (c : Color)
    (x : Nat) (c' : Color) :
    ColorState.Is { st with color := st.color.set u c } x c' ↔
      if u = x then c = c' else st.Is x c' := by
  rw [ColorState.Is, ColorState.Is, List.getElem?_set, if_pos hu]
  by_cases hx : u = x
  · rw [if_pos hx, if_pos hx, Option.some.injEq]
  · rw [if_neg hx, if_neg hx]

theorem ColorState.Is.lt {st : ColorState} {u : Nat} {c : Color} (h : st.Is u c) :
    u < st.color.length :=
  (List.getElem?_eq_some_iff.mp h).1

theorem ColorState.Is.eq {st : ColorState} {u : Nat} {c c' : Color} (h : st.Is u c)
    (h' : st.Is u c') : c = c' :=
  Option.some.inj (h.symm.trans h')

/-- The black events are finished. -/
structure Colored (G : BCGraph) (st : ColorState) : Prop where
  color : st.color.length = G.nNodes + 1
  pred : st.pred.length = G.nNodes + 1
  finished : Finished G.Arc (fun x => st.Is x .black)

/-- A search that finds nothing leaves fewer events white, and the grey ones grey. -/
structure Later (st st' : ColorState) : Prop where
  grey : ∀ x, st'.Is x .grey ↔ st.Is x .grey
  black : ∀ x, st.Is x .black → st'.Is x .black
  white : st'.color.count .white ≤ st.color.count .white

theorem Later.refl (st : ColorState) : Later st st := ⟨fun _ => Iff.rfl, fun _ h => h, le_refl _⟩

theorem Later.trans {st₁ st₂ st₃ : ColorState} (h : Later st₁ st₂) (h' : Later st₂ st₃) :
    Later st₁ st₃ :=
  ⟨fun x => (h'.grey x).trans (h.grey x),
    fun x hx => h'.black x (h.black x hx), h'.white.trans h.white⟩

/-- The two ends of a search from an event. -/
inductive Outcome (G : BCGraph) (u : Nat) (st : ColorState) : Bool × ColorState → Prop where
  | cycle {w : Nat} {st' : ColorState} : TransGen G.Arc w w → st'.pred.length = G.nNodes + 1 →
      Outcome G u st (true, st')
  | finished {st' : ColorState} : G.Colored st' → Later st st' → st'.Is u .black →
      Outcome G u st (false, st')

theorem Colored.lt {st : ColorState} (h : G.Colored st) {u : Nat} (hu : u ∈ G.nodes) :
    u < st.color.length := by
  have := mem_nodes.mp hu
  have := h.color
  omega

theorem Colored.grey {st : ColorState} (h : G.Colored st) {u : Nat} (hw : st.Is u .white) :
    G.Colored { st with color := st.color.set u .grey } where
  color := by rw [List.length_set, h.color]
  pred := h.pred
  finished := h.finished.congr (fun x => by
    rw [ColorState.is_set hw.lt]
    by_cases hx : u = x
    · subst hx
      rw [if_pos rfl]
      exact ⟨nofun, fun hb => nomatch hw.eq hb⟩
    · rw [if_neg hx])

/-- An event whose successors are black is finished. -/
theorem Colored.black {st : ColorState} (h : G.Colored st) {u : Nat} (hg : st.Is u .grey)
    (hs : ∀ v ∈ G.edges u, st.Is v .black) :
    G.Colored { st with color := st.color.set u .black } where
  color := by rw [List.length_set, h.color]
  pred := h.pred
  finished := (h.finished.insert (fun hb => nomatch hg.eq hb) hs).congr (fun x => by
    rw [ColorState.is_set hg.lt]
    by_cases hx : u = x
    · simp [hx]
    · simp [hx, Ne.symm hx])

theorem count_grey {st : ColorState} {u : Nat} (hw : st.Is u .white) :
    (st.color.set u .grey).count .white + 1 = st.color.count .white := by
  have hu := hw.lt
  have he : st.color[u] = .white := Option.some.inj ((List.getElem?_eq_getElem hu).symm.trans hw)
  have hpos : 0 < st.color.count .white := List.count_pos_iff.mpr (he ▸ List.getElem_mem hu)
  rw [List.count_set hu, he]
  simp only [beq_self_eq_true, if_true]
  have hne : (Color.grey == Color.white) = false := rfl
  rw [hne]
  simp only [Bool.false_eq_true, if_false]
  omega

theorem count_black {st : ColorState} {u : Nat} (hg : st.Is u .grey) :
    (st.color.set u .black).count .white = st.color.count .white := by
  have hu := hg.lt
  have he : st.color[u] = .grey := Option.some.inj ((List.getElem?_eq_getElem hu).symm.trans hg)
  rw [List.count_set hu, he]
  rfl

/-- From the grey event on, and then black, is later than white. -/
theorem Later.black_of_grey {st st' : ColorState} {u : Nat} (hw : st.Is u .white)
    (h : Later { st with color := st.color.set u .grey } st') :
    Later st { st' with color := st'.color.set u .black } := by
  have hg : st'.Is u .grey :=
    (h.grey u).mpr ((ColorState.is_set hw.lt _ _ _).mpr (by rw [if_pos rfl]))
  refine ⟨fun x => ?_, fun x hx => ?_, ?_⟩
  · rw [ColorState.is_set hg.lt]
    by_cases hx : u = x
    · subst hx
      rw [if_pos rfl]
      exact ⟨nofun, fun h => nomatch hw.eq h⟩
    · rw [if_neg hx, h.grey, ColorState.is_set hw.lt, if_neg hx]
  · have hne : u ≠ x := by
      rintro rfl
      exact nomatch hw.eq hx
    rw [ColorState.is_set hg.lt, if_neg hne]
    refine h.black x ?_
    rw [ColorState.is_set hw.lt, if_neg hne]
    exact hx
  · have hle := h.white
    have hgrey := count_grey hw
    have hblack := count_black hg
    simp only at hle ⊢
    omega

/-- What is asked of the recursive search. -/
def Searches (G : BCGraph) (fuel : Nat)
    (search : Nat → ColorState → ExceptT Err Option (Bool × ColorState)) : Prop :=
  ∀ u st, G.Colored st → st.Is u .white → u ∈ G.nodes → (∀ p, st.Is p .grey → TransGen G.Arc p u) →
    st.color.count .white ≤ fuel → ∃ res, search u st = fueled (.ok res) ∧ G.Outcome u st res

section Scan

variable {search : Nat → ColorState → ExceptT Err Option (Bool × ColorState)} {u : Nat}
  {st st' : ColorState}
  (hw : st.Is u .white) (hl : Later { st with color := st.color.set u .grey } st')
include hw hl

/-- While the successors of `u` are scanned, what is grey leads to them. -/
theorem grey_reaches (hreach : ∀ p, st.Is p .grey → TransGen G.Arc p u) {v : Nat}
    (huv : G.Arc u v) {p : Nat} (hp : st'.Is p .grey) : TransGen G.Arc p v := by
  have hgrey := (hl.grey p).mp hp
  rw [ColorState.is_set hw.lt] at hgrey
  by_cases he : u = p
  · exact he ▸ .single huv
  · rw [if_neg he] at hgrey
    exact (hreach p hgrey).tail huv

/-- An event whose successors are all black is painted black. -/
theorem scanned_spec (hc : G.Colored st') (hdone : ∀ v ∈ G.edges u, st'.Is v .black) :
    ∃ res, scanColor search u [] st' = fueled (.ok res) ∧ G.Outcome u st res := by
  have hg : st'.Is u .grey :=
    (hl.grey u).mpr ((ColorState.is_set hw.lt _ _ _).mpr (by rw [if_pos rfl]))
  have hrun : scanColor search u [] st' =
      fueled (.ok (false, { st' with color := st'.color.set u .black })) := by
    simp only [scanColor, ColorState.paint, hg.lt, if_true, fueled_ok_bind]
  have hblack : ColorState.Is { st' with color := st'.color.set u .black } u .black :=
    (ColorState.is_set hg.lt _ _ _).mpr (by rw [if_pos rfl])
  exact ⟨_, hrun, .finished (hc.black hg hdone) (hl.black_of_grey hw) hblack⟩

end Scan

/-- The loop over the successors of a grey event; those already passed are black. -/
theorem scanColor_spec {search : Nat → ColorState → ExceptT Err Option (Bool × ColorState)}
    {fuel u : Nat} {st : ColorState}
    (hG : G.Closed) (hsearch : G.Searches fuel search) (hw : st.Is u .white)
    (hreach : ∀ p, st.Is p .grey → TransGen G.Arc p u) (hf : st.color.count .white ≤ fuel + 1) :
    ∀ vs st', (∀ v ∈ vs, v ∈ G.edges u) → (∀ v ∈ G.edges u, v ∈ vs ∨ st'.Is v .black) →
      G.Colored st' →
      Later { st with color := st.color.set u .grey } st' →
      ∃ res, scanColor search u vs st' = fueled (.ok res) ∧ G.Outcome u st res := by
  intro vs
  induction vs with
  | nil =>
    intro st' _ hdone hc hl
    exact scanned_spec hw hl hc (fun v hv => (hdone v hv).resolve_left List.not_mem_nil)
  | cons v vs ih =>
    intro st' hvs hdone hc hl
    have huv : G.Arc u v := hvs v List.mem_cons_self
    have hv := hG.mem u v huv
    have hvs' : ∀ w ∈ vs, w ∈ G.edges u := fun w hw => hvs w (List.mem_cons_of_mem v hw)
    have hto : ∀ p, st'.Is p .grey → TransGen G.Arc p v :=
      fun p hp => grey_reaches hw hl hreach huv hp
    obtain ⟨c, hcol⟩ : ∃ c, st'.Is v c := ⟨_, List.getElem?_eq_getElem (hc.lt hv)⟩
    have hnext : ∀ st'' : ColorState, st''.Is v .black → (∀ x, st'.Is x .black → st''.Is x .black) →
        ∀ w ∈ G.edges u, w ∈ vs ∨ st''.Is w .black := by
      intro st'' hb hmono w hw
      rcases hdone w hw with hm | hb'
      · rcases List.mem_cons.mp hm with rfl | hm
        · exact .inr hb
        · exact .inl hm
      · exact .inr (hmono w hb')
    cases c with
    | grey =>
      refine ⟨(true, st'), by simp only [scanColor, show st'.color[v]? = some .grey from hcol], ?_⟩
      exact .cycle (hto v hcol) hc.pred
    | black =>
      obtain ⟨res, hrun, hres⟩ := ih st' hvs' (hnext st' hcol (fun _ h => h)) hc hl
      exact ⟨res, by simp only [scanColor, show st'.color[v]? = some .black from hcol, hrun], hres⟩
    | white =>
      have hcount : st'.color.count .white ≤ fuel := by
        have hle := hl.white
        have hone := count_grey hw
        simp only at hle
        omega
      obtain ⟨⟨found, st''⟩, hrun, hout⟩ := hsearch v st' hc hcol hv hto hcount
      cases hout with
      | cycle hcyc hpred =>
        have hlt : v < st''.pred.length := by
          have := hc.lt hv
          have := hc.color
          omega
        have hfound : scanColor search u (v :: vs) st' =
            fueled (.ok (true, { st'' with pred := st''.pred.set v u })) := by
          simp only [scanColor, show st'.color[v]? = some .white from hcol, hrun,
            fueled_ok_bind, if_true, ColorState.setPred, hlt]
        refine ⟨_, hfound, .cycle hcyc ?_⟩
        rw [List.length_set, hpred]
      | finished hc' hl' hb =>
        obtain ⟨res, hrun', hres⟩ := ih st'' hvs' (hnext st'' hb hl'.black) hc' (hl.trans hl')
        exact ⟨res, by simp only [scanColor, show st'.color[v]? = some .white from hcol, hrun,
          fueled_ok_bind, Bool.false_eq_true, if_false, hrun'], hres⟩

theorem dfsGraphColor_spec (hG : G.Closed) (fuel : Nat) :
    G.Searches fuel (G.dfsGraphColor o fuel) := by
  induction fuel with
  | zero =>
    intro u st _ hw _ _ hf
    have := count_grey hw
    omega
  | succ fuel ih =>
    intro u st hc hw hu hreach hf
    obtain ⟨res, hrun, hres⟩ := scanColor_spec hG ih hw hreach hf (o.iter (G.edges u))
      { st with color := st.color.set u .grey } (fun v hv => (SetOrder.mem_iter o _ v).mp hv)
      (fun v hv => .inl ((SetOrder.mem_iter o _ v).mpr hv)) (hc.grey hw) (.refl _)
    refine ⟨res, ?_, hres⟩
    simp only [dfsGraphColor, ColorState.paint, hw.lt, if_true, fueled_ok_bind,
      successors_of_mem hu, hrun]

/-- Between two searches no event is grey. The loop ends with all events finished, or
with a cycle. -/
theorem detectFrom_spec (hG : G.Closed) {fuel : Nat} : ∀ us st, (∀ u ∈ us, u ∈ G.nodes) →
    (∀ u ∈ G.nodes, u ∈ us ∨ st.Is u .black) → G.Colored st → (∀ x, ¬ st.Is x .grey) →
    st.color.count .white ≤ fuel →
    ∃ r, G.detectFrom o fuel us st = fueled (.ok r) ∧ (r = true ↔ ¬ Acyclic G.Arc) := by
  intro us
  induction us with
  | nil =>
    intro st _ hdone hc _ _
    refine ⟨false, rfl, ⟨nofun, fun hn => absurd (fun u hu => ?_) hn⟩⟩
    obtain ⟨w, _, hw⟩ := TransGen.tail'_iff.mp hu
    have hb : st.Is u .black := (hdone u (hG.mem w u hw)).resolve_left List.not_mem_nil
    exact hc.finished.acyclic u hb hu
  | cons u us ih =>
    intro st hus hdone hc hgrey hf
    have hu := hus u List.mem_cons_self
    have hus' : ∀ v ∈ us, v ∈ G.nodes := fun v hv => hus v (List.mem_cons_of_mem u hv)
    have hnext : ∀ st' : ColorState, st'.Is u .black → (∀ x, st.Is x .black → st'.Is x .black) →
        ∀ v ∈ G.nodes, v ∈ us ∨ st'.Is v .black := by
      intro st' hb hmono v hv
      rcases hdone v hv with hm | hb'
      · rcases List.mem_cons.mp hm with rfl | hm
        · exact .inr hb
        · exact .inl hm
      · exact .inr (hmono v hb')
    obtain ⟨c, hcol⟩ : ∃ c, st.Is u c := ⟨_, List.getElem?_eq_getElem (hc.lt hu)⟩
    cases c with
    | grey => exact absurd hcol (hgrey u)
    | black =>
      obtain ⟨r, hrun, hr⟩ := ih st hus' (hnext st hcol (fun _ h => h)) hc hgrey hf
      exact ⟨r, by simp only [detectFrom, show st.color[u]? = some .black from hcol, hrun], hr⟩
    | white =>
      obtain ⟨⟨found, st'⟩, hrun, hout⟩ := dfsGraphColor_spec (o := o) hG fuel u st hc hcol hu
        (fun p hp => absurd hp (hgrey p)) hf
      cases hout with
      | cycle hcyc _ =>
        refine ⟨true, by simp only [detectFrom, show st.color[u]? = some .white from hcol, hrun,
          fueled_ok_bind, if_true], ?_⟩
        exact ⟨fun _ ha => ha _ hcyc, fun _ => rfl⟩
      | finished hc' hl hb =>
        obtain ⟨r, hrun', hr⟩ :=
          ih st' hus' (hnext st' hb hl.black) hc' (fun x hx => hgrey x ((hl.grey x).mp hx))
          (hl.white.trans hf)
        exact ⟨r, by simp only [detectFrom, show st.color[u]? = some .white from hcol, hrun,
          fueled_ok_bind, Bool.false_eq_true, if_false, hrun'], hr⟩

theorem detectCycleGraphColor_spec (o : SetOrder) (hG : G.Closed) {fuel : Nat}
    (hf : G.nNodes < fuel) :
    ∃ r, G.detectCycleGraphColor o fuel = fueled (.ok r) ∧ (r = true ↔ ¬ Acyclic G.Arc) := by
  have hwhite : ∀ {x c}, ColorState.Is
      ⟨List.replicate (G.nNodes + 1) .white, List.replicate (G.nNodes + 1) (-1)⟩ x c →
      c = .white := by
    intro x c h
    have hx := (List.getElem?_eq_some_iff.mp h).2
    rw [List.getElem_replicate] at hx
    exact hx.symm
  refine detectFrom_spec hG G.nodes _ (fun u hu => hu) (fun u hu => .inl hu) ?_
    (fun x hx => nomatch hwhite hx) ?_
  · refine ⟨List.length_replicate, List.length_replicate, ⟨fun u v hu => ?_, fun u hu => ?_⟩⟩
    · exact nomatch hwhite hu
    · exact nomatch hwhite hu
  · simp only [List.count_replicate_self]
    omega

end Coloring

end BCGraph

namespace ArgumentedPolyGraph

variable {κ : Type} {g : ArgumentedPolyGraph κ}

theorem EdgesInRange.closed {G : BCGraph} (hg : g.EdgesInRange) (hs : G.Shows g.nNodes g.KnownBC) :
    G.Closed where
  nodup := hs.nodup
  mem u v hv := by
    obtain ⟨a, b, hab, _, rfl⟩ := (hs.mem u v).mp hv
    exact hs.num_mem (hg.knownBC_lt hab).2

/-- All events come after the begin of T0. -/
theorem reaches_all {G : BCGraph} (hs : G.Shows g.nNodes g.KnownBC) (h0 : 0 < g.nNodes)
    (hT0 : ∀ i, 0 < i → i < g.nNodes → ∃ type, type ≠ .rw ∧ (i, type) ∈ g.edges 0) {w : Nat}
    (hw : w ∈ G.nodes) :
    ReflTransGen G.Arc 1 w := by
  have harc : ∀ {a b}, g.KnownBC a b → G.Arc a.num b.num :=
    fun hab => (hs.mem _ _).mpr ⟨_, _, hab, rfl, rfl⟩
  have hbegin : ∀ i, i < g.nNodes → ReflTransGen G.Arc 1 (Event.s i).num := by
    intro i hi
    by_cases h : i = 0
    · subst h
      exact .refl
    · obtain ⟨type, htype, hm⟩ := hT0 i (by omega) hi
      have hbefore : (Edge.mk 0 i type).before = (.c 0, .s i) := by
        cases type with
        | rw => exact absurd rfl htype
        | wr => rfl
        | ww => rfl
        | cb => rfl
      exact (ReflTransGen.single (harc (.begins h0))).tail (harc (.known ⟨0, i, type, hm, hbefore⟩))
  obtain ⟨hpos, hle⟩ := BCGraph.mem_nodes.mp hw
  rw [hs.nNodes] at hle
  obtain ⟨a, ha, rfl⟩ := Event.exists_num hpos hle
  cases a with
  | s i => exact hbegin i ha
  | c i => exact (hbegin i ha).tail (harc (.begins ha))

/-- With T0 before every other transaction, both searches answer whether the known
edges have a cycle. -/
theorem detectCycle_agree (o : SetOrder) (hg : g.EdgesInRange) (h0 : 0 < g.nNodes)
    (hT0 : ∀ i, 0 < i → i < g.nNodes → ∃ type, type ≠ .rw ∧ (i, type) ∈ g.edges 0) :
    ∃ G, g.toBCGraph o = .ok G ∧ ∃ enough, ∀ fuel, enough ≤ fuel →
      ∃ r, G.myDetectCycle o fuel = fueled (.ok r) ∧
      G.detectCycleGraphColor o fuel = fueled (.ok r) ∧
        (r = true ↔ ¬ Acyclic (fun u v => v ∈ G.edges u)) := by
  obtain ⟨G, hG, hs⟩ := toBCGraph_spec o hg
  have hc := hg.closed hs
  have h1 : 1 ∈ G.nodes := BCGraph.mem_nodes.mpr (by rw [hs.nNodes]; omega)
  refine ⟨G, hG, G.nNodes + 1, fun fuel hf => ?_⟩
  obtain ⟨r₁, h₁, hr₁⟩ := BCGraph.myDetectCycle_spec o hc h1 (fun w hw => by
    obtain ⟨v, _, hv⟩ := TransGen.tail'_iff.mp hw
    exact reaches_all hs h0 hT0 (hc.mem v w hv)) hf
  obtain ⟨r₂, h₂, hr₂⟩ := BCGraph.detectCycleGraphColor_spec o hc hf
  have he : r₂ = r₁ := Bool.eq_iff_iff.mpr (hr₂.trans hr₁.symm)
  exact ⟨r₁, h₁, he ▸ h₂, hr₁⟩

theorem detectCycle_agree_circular :
    ∃ G, circular.toBCGraph .stored = .ok G ∧ ∃ enough, ∀ fuel, enough ≤ fuel →
      ∃ r, G.myDetectCycle .stored fuel = fueled (.ok r) ∧
        G.detectCycleGraphColor .stored fuel = fueled (.ok r) ∧
        (r = true ↔ ¬ Acyclic (fun u v => v ∈ G.edges u)) :=
  detectCycle_agree .stored circular_edgesInRange (by decide) circular_initial

/-- The begin of transaction 1 before its own commit, and after it. -/
example : BCGraph.myDetectCycle .stored
    ⟨4, fun u => if u = 1 then [2] else if u = 2 then [3] else if u = 3 then [4]
    else if u = 4 then [3] else []⟩ 5 = fueled (.ok true) := rfl

end ArgumentedPolyGraph

end Viper
