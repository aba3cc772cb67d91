import Viper.TopoSort
import Mathlib.Algebra.Order.Field.Rat
import Mathlib.Tactic.Linarith

/-!
# Pruning constraints by rank (`optimization/chain_heuristic.py`)

A constraint is decided in favour of a side with an edge that spans more than
`k` ranks: its edges become known and the constraint is dropped. A choice for the
pruned input is one for the original input, whatever the ranks are. No edge
spans as many ranks as there are events.
-/
namespace Viper

open Py

variable {κ : Type}

def addFromEdgeList (iterG : ArgumentedPolyGraph κ) (edgeList : List Edge) :
    Except Err (ArgumentedPolyGraph κ) :=
  edgeList.foldlM (fun iterG e => iterG.addEdge e.src e.dst e.type) iterG

/-- `nid2score[u]` -/
def scoreOf (nid2score : Dict Nat Nat) (u : Nat) : Except Err ℚ :=
  match nid2score.get? u with
  | none => .error .keyError
  | some r => .ok r

def pickThisEs (k : ℚ) (nid2score : Dict Nat Nat) : List Edge → Except Err Bool
  | [] => .ok false
  | e :: es => do
    let (u, v) := match e.type with
      | .rw => (si e.src, ci e.dst)
      | _ => (ci e.src, si e.dst)
    let srcScore ← scoreOf nid2score u
    let dstScore ← scoreOf nid2score v
    if srcScore + k < dstScore then .ok true else pickThisEs k nid2score es

/-- `iter_conn.remove(...)` -/
def removeConstraint (iterConn : List Constraint) (p : Constraint) : Except Err (List Constraint) :=
  if p ∈ iterConn then .ok (iterConn.erase p) else .error .keyError

/-- The loop over the constraints, which ends at a contradiction. -/
def boundConstraints (k : ℚ) (nid2score : Dict Nat Nat) :
    List Constraint → ArgumentedPolyGraph κ → List Constraint →
    Except Err (Bool × ArgumentedPolyGraph κ × List Constraint)
  | [], iterG, iterConn => .ok (true, iterG, iterConn)
  | (es1, es2) :: conn, iterG, iterConn => do
    let ret1 ← pickThisEs k nid2score es1
    let ret2 ← pickThisEs k nid2score es2
    if ret1 ∧ ret2 then .ok (false, iterG, iterConn)
    else if ret1 then
      let iterConn ← removeConstraint iterConn (es1, es2)
      let iterG ← addFromEdgeList iterG es1
      boundConstraints k nid2score conn iterG iterConn
    else if ret2 then
      let iterConn ← removeConstraint iterConn (es1, es2)
      let iterG ← addFromEdgeList iterG es2
      boundConstraints k nid2score conn iterG iterConn
    else boundConstraints k nid2score conn iterG iterConn

/-- `k_bounded_constraints`, with the graph and the constraints it leaves behind. -/
def kBoundedConstraints (o : SetOrder) (k : ℚ) (conn : List Constraint)
    (iterG : ArgumentedPolyGraph κ) (iterConn : List Constraint) (nid2score : Dict Nat Nat) :
    Except Err (Bool × ArgumentedPolyGraph κ × List Constraint) :=
  boundConstraints k nid2score (o.iter conn) iterG iterConn

section Picking

variable {k : ℚ} {nid2score : Dict Nat Nat} {n : Nat} (hr : Ranked n nid2score)
include hr

/-- The scores of the two events of an edge. -/
theorem Ranked.scores {e : Edge} (hsrc : e.src < n) (hdst : e.dst < n) :
    ∃ r r' : Nat, r < 2 * n ∧ r' < 2 * n ∧ scoreOf nid2score e.before.1.num = .ok (r : ℚ) ∧
      scoreOf nid2score e.before.2.num = .ok (r' : ℚ) := by
  obtain ⟨r, h, hlt⟩ := hr.lookup e.before.1 (e.idx_src ▸ hsrc)
  obtain ⟨r', h', hlt'⟩ := hr.lookup e.before.2 (e.idx_dst ▸ hdst)
  exact ⟨r, r', hlt, hlt', by simp only [scoreOf, h], by simp only [scoreOf, h']⟩

omit hr in
/-- No edge spans as many ranks as there are events. -/
theorem not_spans_all {r r' : Nat} (hlt : r' < 2 * n) : ¬ (r : ℚ) + (2 * n - 1) < r' := by
  have h₁ : (r' : ℚ) + 1 ≤ 2 * n := by exact_mod_cast hlt
  have h₂ : (0 : ℚ) ≤ r := Nat.cast_nonneg r
  linarith

theorem pickThisEs_cons {e : Edge} (hsrc : e.src < n) (hdst : e.dst < n) (es : List Edge) :
    ∃ r r', r < 2 * n ∧ r' < 2 * n ∧ pickThisEs k nid2score (e :: es) =
      if (r : ℚ) + k < r' then .ok true else pickThisEs k nid2score es := by
  obtain ⟨r, r', hlt, hlt', h, h'⟩ := hr.scores hsrc hdst
  refine ⟨r, r', hlt, hlt', ?_⟩
  obtain ⟨src, dst, type⟩ := e
  cases type <;> simp only [Edge.before, Event.num] at h h' <;>
    simp only [pickThisEs, h, h', ok_bind]

theorem pickThisEs_total {es : List Edge} (hes : ∀ e ∈ es, e.src < n ∧ e.dst < n) :
    ∃ ret, pickThisEs k nid2score es = .ok ret := by
  induction es with
  | nil => exact ⟨false, rfl⟩
  | cons e es ih =>
    obtain ⟨hsrc, hdst⟩ := hes e List.mem_cons_self
    obtain ⟨r, r', _, _, he⟩ := pickThisEs_cons (k := k) hr hsrc hdst es
    rw [he]
    split
    · exact ⟨true, rfl⟩
    · exact ih (fun e' he' => hes e' (List.mem_cons_of_mem e he'))

/-- With the largest `k` nothing is picked. -/
theorem pickThisEs_none {es : List Edge} (hes : ∀ e ∈ es, e.src < n ∧ e.dst < n) :
    pickThisEs (2 * n - 1) nid2score es = .ok false := by
  induction es with
  | nil => rfl
  | cons e es ih =>
    obtain ⟨hsrc, hdst⟩ := hes e List.mem_cons_self
    obtain ⟨r, r', _, hlt, he⟩ := pickThisEs_cons (k := 2 * n - 1) hr hsrc hdst es
    rw [he, if_neg (not_spans_all hlt)]
    exact ih (fun e' he' => hes e' (List.mem_cons_of_mem e he'))

end Picking

/-- What the builders guarantee about the input of the heuristic. -/
structure Prunable (g : ArgumentedPolyGraph κ) (con : List Constraint) : Prop where
  pos : 0 < g.nNodes
  bounded : g.Bounded
  nodup : con.Nodup
  ne_nil : ∀ p ∈ con, p.1 ≠ [] ∧ p.2 ≠ []
  valid : ∀ p ∈ con, ∀ e, e ∈ p.1 ∨ e ∈ p.2 → e.src < g.nNodes ∧ e.dst < g.nNodes ∧ e.dst ≠ 0
  loopless : Precedence.Acyclic g.KnownBC → ∀ p ∈ con, ∀ e, e ∈ p.1 ∨ e ∈ p.2 → e.src ≠ e.dst

/-- All edges of a side are known. -/
def Committed (g : ArgumentedPolyGraph κ) (es : List Edge) : Prop :=
  ∀ e ∈ es, g.Before e.before.1 e.before.2

/-- Some constraints are dropped, each with the edges of a side made known. -/
structure Pruned (g : ArgumentedPolyGraph κ) (con : List Constraint) (g' : ArgumentedPolyGraph κ)
    (con' : List Constraint) : Prop where
  nNodes : g'.nNodes = g.nNodes
  inv : g'.Inv
  before : ∀ a b, g.Before a b → g'.Before a b
  nodup : con'.Nodup
  mem : ∀ p ∈ con', p ∈ con
  decided : ∀ p ∈ con, p ∈ con' ∨ Committed g' p.1 ∨ Committed g' p.2

section Pruning

variable {g g' : ArgumentedPolyGraph κ} {con con' : List Constraint}

theorem pruned_refl (hg : g.Inv) (hn : con.Nodup) : Pruned g con g con :=
  ⟨rfl, hg, fun _ _ h => h, hn, fun _ h => h, fun _ h => .inl h⟩

/-- One constraint is decided. -/
theorem Pruned.decide (h : Pruned g con g' con') {p : Constraint} {es : List Edge}
    (hes : es = p.1 ∨ es = p.2)
    (hp : p ∈ con') (hv : ∀ e ∈ es, e.src ≠ e.dst ∧ e.dst ≠ 0 ∧ e.src < g.nNodes) :
    ∃ g'', removeConstraint con' p = .ok (con'.erase p) ∧ addFromEdgeList g' es = .ok g'' ∧
      Pruned g con g'' (con'.erase p) := by
  obtain ⟨g'', hplay, hplayed⟩ :=
    play_spec (G := g') (S := es.map fun e => .ok (.edge e)) (fun x hx => by
    obtain ⟨e, he, rfl⟩ := List.mem_map.mp hx
    exact ⟨_, rfl, h.nNodes ▸ hv e he⟩)
  have hadd : addFromEdgeList g' es = .ok g'' :=
    (foldlM_eq_play_map Cmd.edge (fun _ _ _ => rfl) g').trans hplay
  have hold : ∀ a b, g'.Before a b → g''.Before a b :=
    fun a b hab => (hplayed.before a b).mpr (.inl hab)
  have hnew : Committed g'' es :=
    fun e he => (hplayed.before _ _).mpr (.inr ⟨e, List.mem_map.mpr ⟨e, he, rfl⟩, rfl⟩)
  refine ⟨g'', if_pos hp, hadd, hplayed.nNodes.trans h.nNodes, hplayed.inv h.inv,
    fun a b hab => hold a b (h.before a b hab),
    h.nodup.erase p, fun q hq => h.mem q (List.mem_of_mem_erase hq), fun q hq => ?_⟩
  rcases h.decided q hq with hm | hc | hc
  · by_cases hqp : q = p
    · subst hqp
      rcases hes with rfl | rfl
      · exact .inr (.inl hnew)
      · exact .inr (.inr hnew)
    · exact .inl ((List.mem_erase_of_ne hqp).mpr hm)
  · exact .inr (.inl (fun e he => hold _ _ (hc e he)))
  · exact .inr (.inr (fun e he => hold _ _ (hc e he)))

variable {k : ℚ} {nid2score : Dict Nat Nat} (hp : Prunable g con) (hr : Ranked g.nNodes nid2score)
include hp hr

/-- The loop raises nothing, and it prunes unless it meets a contradiction. -/
theorem Pruned.run (ha : Precedence.Acyclic g.KnownBC) (h : Pruned g con g' con')
    {ps : List Constraint} (hn : ps.Nodup) (hps : ∀ p ∈ ps, p ∈ con') :
    ∃ ret g'' con'', boundConstraints k nid2score ps g' con' = .ok (ret, g'', con'') ∧
      (ret = true → Pruned g con g'' con'') := by
  induction ps generalizing g' con' with
  | nil => exact ⟨true, g', con', rfl, fun _ => h⟩
  | cons p ps ih =>
    obtain ⟨es1, es2⟩ := p
    rw [List.nodup_cons] at hn
    have hmem : (es1, es2) ∈ con' := hps _ List.mem_cons_self
    have hvalid := hp.valid _ (h.mem _ hmem)
    have hcmd : ∀ e, e ∈ es1 ∨ e ∈ es2 → e.src ≠ e.dst ∧ e.dst ≠ 0 ∧ e.src < g.nNodes :=
      fun e he => ⟨hp.loopless ha _ (h.mem _ hmem) e he, (hvalid e he).2.2, (hvalid e he).1⟩
    have hrest : ∀ q ∈ ps, q ∈ con'.erase (es1, es2) := by
      intro q hq
      have hne : q ≠ (es1, es2) := fun he => hn.1 (he ▸ hq)
      exact (List.mem_erase_of_ne hne).mpr (hps q (List.mem_cons_of_mem _ hq))
    obtain ⟨ret1, h₁⟩ :=
      pickThisEs_total (k := k) hr (fun e he => ⟨(hvalid e (.inl he)).1, (hvalid e (.inl he)).2.1⟩)
    obtain ⟨ret2, h₂⟩ :=
      pickThisEs_total (k := k) hr (fun e he => ⟨(hvalid e (.inr he)).1, (hvalid e (.inr he)).2.1⟩)
    simp only [boundConstraints, h₁, h₂, ok_bind]
    cases ret1 with
    | true =>
      cases ret2 with
      | true => exact ⟨false, g', con', by simp, nofun⟩
      | false =>
        obtain ⟨g₁, hrem, hadd, hpr⟩ := h.decide (.inl rfl) hmem (fun e he => hcmd e (.inl he))
        simpa [hrem, hadd] using ih hpr hn.2 hrest
    | false =>
      cases ret2 with
      | true =>
        obtain ⟨g₁, hrem, hadd, hpr⟩ := h.decide (.inr rfl) hmem (fun e he => hcmd e (.inr he))
        simpa [hrem, hadd] using ih hpr hn.2 hrest
      | false => simpa using ih h hn.2 (fun q hq => hps q (List.mem_cons_of_mem _ hq))

theorem kBoundedConstraints_total (o : SetOrder) (ha : Precedence.Acyclic g.KnownBC) :
    ∃ ret g' con', kBoundedConstraints o k con g con nid2score = .ok (ret, g', con') ∧
      (ret = true → Pruned g con g' con') :=
  (pruned_refl hp.bounded.inv hp.nodup).run hp hr ha ((SetOrder.nodup_iter o con).mpr hp.nodup)
    (fun p h => (SetOrder.mem_iter o con p).mp h)

/-- With the largest `k` the input stays as it is. -/
theorem kBoundedConstraints_last (o : SetOrder) :
    kBoundedConstraints o (2 * g.nNodes - 1) con g con nid2score = .ok (true, g, con) := by
  have hloop : ∀ ps : List Constraint, (∀ p ∈ ps, p ∈ con) →
      boundConstraints (2 * g.nNodes - 1) nid2score ps g con = .ok (true, g, con) := by
    intro ps
    induction ps with
    | nil => exact fun _ => rfl
    | cons p ps ih =>
      intro hps
      have hvalid := hp.valid p (hps p List.mem_cons_self)
      have h₁ :=
        pickThisEs_none hr
          (fun e (he : e ∈ p.1) => ⟨(hvalid e (.inl he)).1, (hvalid e (.inl he)).2.1⟩)
      have h₂ :=
        pickThisEs_none hr
          (fun e (he : e ∈ p.2) => ⟨(hvalid e (.inr he)).1, (hvalid e (.inr he)).2.1⟩)
      simpa [boundConstraints, h₁, h₂] using ih (fun q hq => hps q (List.mem_cons_of_mem p hq))
  exact hloop _ (fun p h => (SetOrder.mem_iter o con p).mp h)

end Pruning

section Verdict

variable {g g' : ArgumentedPolyGraph κ} {con con' : List Constraint} {o : SetOrder}

theorem Prunable.satisfiable_iff (hp : Prunable g con) :
    GraphSat.Satisfiable (MonoBCPolyGraphCheckerOptimized.check o g con) ↔
      ∃ _ : LinearOrder Event, Ordered g.nNodes (g.edgeList o) con :=
  MonoBCPolyGraphCheckerOptimized.satisfiable_check_iff o hp.pos
    (fun e he => hp.bounded.inv.dst_ne ((g.mem_edgeList o e).mp he).2)
    (fun p h =>
      ⟨fun e he => (hp.valid p h e (.inl he)).2.2, fun e he => (hp.valid p h e (.inr he)).2.2⟩)
        hp.ne_nil

/-- An order for the pruned input is one for the original input. -/
theorem Pruned.ordered [LinearOrder Event] (h : Pruned g con g' con')
    (ho : Ordered g'.nNodes (g'.edgeList o) con') : Ordered g.nNodes (g.edgeList o) con where
  begins i hi := ho.begins i (h.nNodes ▸ hi)
  initial i h0 hi := ho.initial i h0 (h.nNodes ▸ hi)
  known e he := before_lt h.inv ho.known
    (h.before _ _ ⟨e.src, e.dst, e.type, ((g.mem_edgeList o e).mp he).2, rfl⟩)
  choice p hp := by
    rcases h.decided p hp with hm | hc | hc
    · exact ho.choice p hm
    · exact .inl (fun e he => before_lt h.inv ho.known (hc e he))
    · exact .inr (fun e he => before_lt h.inv ho.known (hc e he))

/-- A solution found after pruning is one of the original input. -/
theorem Pruned.satisfiable (h : Pruned g con g' con') (hp : Prunable g con)
    (hs : GraphSat.Satisfiable (MonoBCPolyGraphCheckerOptimized.check o g' con')) :
    GraphSat.Satisfiable (MonoBCPolyGraphCheckerOptimized.check o g con) := by
  have hpos : 0 < g'.nNodes := h.nNodes ▸ hp.pos
  have hiff := MonoBCPolyGraphCheckerOptimized.satisfiable_check_iff o hpos
    (fun e he => h.inv.dst_ne ((g'.mem_edgeList o e).mp he).2)
    (fun p hm => ⟨fun e he => (hp.valid p (h.mem p hm) e (.inl he)).2.2,
      fun e he => (hp.valid p (h.mem p hm) e (.inr he)).2.2⟩) (fun p hm => hp.ne_nil p (h.mem p hm))
  obtain ⟨lo, ho⟩ := hiff.mp hs
  exact hp.satisfiable_iff.mpr ⟨lo, h.ordered ho⟩

/-- Without a sort of the known edges there is no solution. -/
theorem Prunable.unsatisfiable_of_cycle (hp : Prunable g con)
    (hc : ¬ Precedence.Acyclic g.KnownBC) :
    ¬ GraphSat.Satisfiable (MonoBCPolyGraphCheckerOptimized.check o g con) := by
  intro hs
  obtain ⟨lo, ho⟩ := hp.satisfiable_iff.mp hs
  exact hc (ArgumentedPolyGraph.acyclic_knownBC hp.bounded.inv ho.begins ho.known)

end Verdict

end Viper
