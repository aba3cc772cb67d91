import Viper.Retry
import Viper.EdgeWeight

/-!
# Pruning pairs by rank (`optimization/pair_heuristic.py`)

A pair is decided in favour of a side that spans more than `k` ranks, and the
side becomes known. The pair itself is removed from a list that nobody reads
again, so that the copy handed to the checker still has all pairs.
-/
namespace Viper

open Py

namespace PairHeuristic

section Definitions

variable {κ : Type}

def pickThisEdgePair (edge : Edge) (k : ℚ) (nid2rank : Dict Nat Nat) : Except Err Bool := do
  let (u, v) := match edge.type with
    | .rw => (si edge.src, ci edge.dst)
    | _ => (ci edge.src, si edge.dst)
  let srcRank ← scoreOf nid2rank u
  let dstRank ← scoreOf nid2rank v
  .ok (decide (srcRank + k < dstRank))

/-- `iter_conn.remove(...)` -/
def removePair (iterConn : List (Edge × Edge)) (p : Edge × Edge) :
    Except Err (List (Edge × Edge)) :=
  if iterConn.contains p then .ok (iterConn.erase p) else .error .valueError

/-- The loop over the pairs. `iter_conn` is a variable of its own. -/
def boundPairs (k : ℚ) (nid2rank : Dict Nat Nat) :
    List (Edge × Edge) → ArgumentedPolyGraph κ → List (Edge × Edge) →
    Except Err (Bool × ArgumentedPolyGraph κ)
  | [], iterG, _ => .ok (true, iterG)
  | (e1, e2) :: conn, iterG, iterConn => do
    let ret1 ← pickThisEdgePair e1 k nid2rank
    let ret2 ← pickThisEdgePair e2 k nid2rank
    if ret1 ∧ ret2 then .ok (false, iterG)
    else if ret1 then
      let iterConn ← removePair iterConn (e1, e2)
      let iterG ← iterG.addEdge e1.src e1.dst e1.type
      boundPairs k nid2rank conn iterG iterConn
    else if ret2 then
      let iterConn ← removePair iterConn (e1, e2)
      let iterG ← iterG.addEdge e2.src e2.dst e2.type
      boundPairs k nid2rank conn iterG iterConn
    else boundPairs k nid2rank conn iterG iterConn

/-- The result, with `G` and `iter_G` as the call leaves them. `get_4tuples` copies the pairs. -/
def kBoundedConstraints (o : SetOrder) (k : ℚ) (G iterG : ArgumentedPolyGraph κ)
    (nid2rank : Dict Nat Nat) :
    Except Err (Bool × ArgumentedPolyGraph κ × ArgumentedPolyGraph κ) := do
  let (_, _, conn, _) := G.get4tuples o
  let (_, _, iterConn, _) := iterG.get4tuples o
  let (ret, iterG) ← boundPairs k nid2rank conn iterG iterConn
  .ok (ret, G, iterG)

end Definitions

section Loop

variable {κ : Type} {k : ℚ} {nid2rank : Dict Nat Nat} {g g' : ArgumentedPolyGraph κ}

/-- An edge spans more than `k` ranks. -/
def Picked (k : ℚ) (nid2rank : Dict Nat Nat) (e : Edge) : Prop :=
  pickThisEdgePair e k nid2rank = .ok true

/-- What keeps the loop from passing a pair: a missing rank, a contradiction, or a
picked side that cannot be added. -/
inductive Blocked (n : Nat) (k : ℚ) (nid2rank : Dict Nat Nat) (p : Edge × Edge) : Prop
  | first : (∀ ret, pickThisEdgePair p.1 k nid2rank ≠ .ok ret) → Blocked n k nid2rank p
  | second : (∀ ret, pickThisEdgePair p.2 k nid2rank ≠ .ok ret) → Blocked n k nid2rank p
  | both : Picked k nid2rank p.1 → Picked k nid2rank p.2 → Blocked n k nid2rank p
  | addFirst : Picked k nid2rank p.1 → ¬ (Cmd.edge p.1).Valid n → Blocked n k nid2rank p
  | addSecond : Picked k nid2rank p.2 → ¬ (Cmd.edge p.2).Valid n → Blocked n k nid2rank p

/-- The picked sides are added, and nothing else happens to the graph. -/
structure Added (k : ℚ) (nid2rank : Dict Nat Nat) (ps : List (Edge × Edge))
    (g g' : ArgumentedPolyGraph κ) : Prop where
  nNodes : g'.nNodes = g.nNodes
  edgePairs : g'.edgePairs = g.edgePairs
  inv : g.Inv → g'.Inv
  before : ∀ a b, g'.Before a b ↔ g.Before a b ∨ ∃ p ∈ ps,
    (Picked k nid2rank p.1 ∧ p.1.before = (a, b)) ∨ (Picked k nid2rank p.2 ∧ p.2.before = (a, b))

theorem Added.skip {p : Edge × Edge} {ps : List (Edge × Edge)} (h₁ : ¬ Picked k nid2rank p.1)
    (h₂ : ¬ Picked k nid2rank p.2)
    (h : Added k nid2rank ps g g') : Added k nid2rank (p :: ps) g g' where
  nNodes := h.nNodes
  edgePairs := h.edgePairs
  inv := h.inv
  before a b := by
    rw [h.before, List.exists_mem_cons_iff]
    simp [h₁, h₂]

theorem addEdge_edgePairs {src dst : Nat} {type : EdgeType} (h : g.addEdge src dst type = .ok g') :
    g'.edgePairs = g.edgePairs := by
  simp only [ArgumentedPolyGraph.addEdge, bind_eq_ok] at h
  obtain ⟨_, _, _, _, _, _, h⟩ := h
  split at h
  · cases h
  · split at h
    · cases h
      rfl
    · split at h
      · cases h
        rfl
      · cases h
        rfl

/-- One picked side. -/
theorem Added.add {p : Edge × Edge} {ps : List (Edge × Edge)} {e : Edge}
    {g₁ : ArgumentedPolyGraph κ} (he : (e = p.1 ∧ Picked k nid2rank p.1 ∧ ¬ Picked k nid2rank p.2) ∨
      (e = p.2 ∧ Picked k nid2rank p.2 ∧ ¬ Picked k nid2rank p.1))
    (hok : g.addEdge e.src e.dst e.type = .ok g₁) (hs : Stores (.edge e) g g₁)
    (h : Added k nid2rank ps g₁ g') :
    Added k nid2rank (p :: ps) g g' where
  nNodes := h.nNodes.trans hs.nNodes
  edgePairs := h.edgePairs.trans (addEdge_edgePairs hok)
  inv hg := h.inv (hs.inv hg)
  before a b := by
    have hone : (∃ e', Cmd.edge e = .edge e' ∧ e'.before = (a, b)) ↔ e.before = (a, b) := by
      constructor
      · rintro ⟨e', hc, hb⟩
        cases hc
        exact hb
      · exact fun hb => ⟨e, rfl, hb⟩
    rw [h.before, hs.before, hone, List.exists_mem_cons_iff, or_assoc]
    refine or_congr_right (or_congr_left ?_)
    rcases he with ⟨rfl, h₁, h₂⟩ | ⟨rfl, h₁, h₂⟩
    · simp [h₁, h₂]
    · simp [h₁, h₂]

theorem exists_ret {e : Edge} (h : ¬ ∀ ret, pickThisEdgePair e k nid2rank ≠ .ok ret) :
    ∃ ret, pickThisEdgePair e k nid2rank = .ok ret := by
  obtain ⟨ret, hret⟩ := not_forall.mp h
  exact ⟨ret, not_not.mp hret⟩

theorem not_picked {e : Edge} (h : pickThisEdgePair e k nid2rank = .ok false) :
    ¬ Picked k nid2rank e := by
  intro hp
  rw [Picked, h] at hp
  cases hp

/-- A pair that is not blocked is skipped, or one side of it is added. -/
theorem boundPairs_cons {p : Edge × Edge} {ps iterConn : List (Edge × Edge)}
    (hps : (p :: ps).Subperm iterConn) (hb : ¬ Blocked g.nNodes k nid2rank p) :
    ∃ g₁ iterConn', boundPairs k nid2rank (p :: ps) g iterConn =
      boundPairs k nid2rank ps g₁ iterConn' ∧
      ps.Subperm iterConn' ∧ g₁.nNodes = g.nNodes ∧
      ∀ g', Added k nid2rank ps g₁ g' → Added k nid2rank (p :: ps) g g' := by
  obtain ⟨e1, e2⟩ := p
  obtain ⟨ret1, h₁⟩ := exists_ret (fun h => hb (.first h))
  obtain ⟨ret2, h₂⟩ := exists_ret (fun h => hb (.second h))
  have hmem : (e1, e2) ∈ iterConn := hps.subset List.mem_cons_self
  have hrest : ps.Subperm (iterConn.erase (e1, e2)) := by
    have herase := hps.erase (e1, e2)
    rwa [List.erase_cons_head] at herase
  cases ret1 with
  | true =>
    cases ret2 with
    | true => exact absurd (.both h₁ h₂) hb
    | false =>
      have hvalid : (Cmd.edge e1).Valid g.nNodes := not_not.mp (fun hv => hb (.addFirst h₁ hv))
      obtain ⟨g₁, hadd, hs⟩ := exec_spec hvalid
      have hadd : g.addEdge e1.src e1.dst e1.type = .ok g₁ := hadd
      refine ⟨g₁, iterConn.erase (e1, e2), ?_, hrest, hs.nNodes, fun g' h => ?_⟩
      · simp [boundPairs, h₁, h₂, removePair, hmem, hadd]
      · exact h.add (.inl ⟨rfl, h₁, not_picked h₂⟩) hadd hs
  | false =>
    cases ret2 with
    | true =>
      have hvalid : (Cmd.edge e2).Valid g.nNodes := not_not.mp (fun hv => hb (.addSecond h₂ hv))
      obtain ⟨g₁, hadd, hs⟩ := exec_spec hvalid
      have hadd : g.addEdge e2.src e2.dst e2.type = .ok g₁ := hadd
      refine ⟨g₁, iterConn.erase (e1, e2), ?_, hrest, hs.nNodes, fun g' h => ?_⟩
      · simp [boundPairs, h₁, h₂, removePair, hmem, hadd]
      · exact h.add (.inr ⟨rfl, h₂, not_picked h₁⟩) hadd hs
    | false =>
      refine ⟨g, iterConn, ?_, (List.sublist_cons_self _ ps).subperm.trans hps, rfl, fun g' h => ?_⟩
      · simp [boundPairs, h₁, h₂]
      · exact h.skip (not_picked h₁) (not_picked h₂)

/-- The loop passes all pairs, or it meets a contradiction and gives up. -/
theorem boundPairs_total {ps iterConn : List (Edge × Edge)} (hps : ps.Subperm iterConn)
    (hb : ∀ p ∈ ps, ¬ Blocked g.nNodes k nid2rank p ∨
      (Picked k nid2rank p.1 ∧ Picked k nid2rank p.2)) :
    ∃ ret g', boundPairs k nid2rank ps g iterConn = .ok (ret, g') ∧
      (ret = true → Added k nid2rank ps g g') ∧
      (ret = false → ∃ p ∈ ps, Picked k nid2rank p.1 ∧ Picked k nid2rank p.2) := by
  induction ps generalizing g iterConn with
  | nil => exact ⟨true, g, rfl, fun _ => ⟨rfl, rfl, id, fun a b => by simp⟩, nofun⟩
  | cons p ps ih =>
    by_cases hp : Blocked g.nNodes k nid2rank p
    · have hboth := (hb p List.mem_cons_self).resolve_left (not_not.mpr hp)
      refine ⟨false, g, ?_, nofun, fun _ => ⟨p, List.mem_cons_self, hboth⟩⟩
      simp [boundPairs, show pickThisEdgePair p.1 k nid2rank = .ok true from hboth.1,
        show pickThisEdgePair p.2 k nid2rank = .ok true from hboth.2]
    · obtain ⟨g₁, iterConn', hrun, hrest, hn, hadd⟩ := boundPairs_cons hps hp
      obtain ⟨ret, g', hrun', h, hcontra⟩ :=
        ih hrest (fun q hq => hn.symm ▸ hb q (List.mem_cons_of_mem p hq))
      refine ⟨ret, g', hrun.trans hrun', fun hret => hadd g' (h hret), fun hret => ?_⟩
      obtain ⟨q, hq, hboth⟩ := hcontra hret
      exact ⟨q, List.mem_cons_of_mem p hq, hboth⟩

/-- A loop over pairs of which none is blocked returns `True`. -/
theorem boundPairs_added {ps iterConn : List (Edge × Edge)} (hps : ps.Subperm iterConn)
    (hb : ∀ p ∈ ps, ¬ Blocked g.nNodes k nid2rank p) :
    ∃ g', boundPairs k nid2rank ps g iterConn = .ok (true, g') ∧ Added k nid2rank ps g g' := by
  obtain ⟨ret, g', hrun, hadd, hcontra⟩ := boundPairs_total hps (fun p hp => .inl (hb p hp))
  cases ret with
  | true => exact ⟨g', hrun, hadd rfl⟩
  | false =>
    obtain ⟨p, hp, h₁, h₂⟩ := hcontra rfl
    exact absurd (.both h₁ h₂) (hb p hp)

theorem boundPairs_ne_of_blocked {p : Edge × Edge} {ps iterConn : List (Edge × Edge)}
    (hb : Blocked g.nNodes k nid2rank p) (g' : ArgumentedPolyGraph κ) :
    boundPairs k nid2rank (p :: ps) g iterConn ≠ .ok (true, g') := by
  obtain ⟨e1, e2⟩ := p
  intro h
  simp only [boundPairs, bind_eq_ok] at h
  obtain ⟨ret1, h₁, ret2, h₂, h⟩ := h
  have hadd : ∀ {e : Edge}, ¬ (Cmd.edge e).Valid g.nNodes →
      ∀ iterG, g.addEdge e.src e.dst e.type ≠ .ok iterG := by
    intro e hv iterG hok
    obtain ⟨err, herr, _⟩ := exec_error hv
    have herr : g.addEdge e.src e.dst e.type = .error err := herr
    rw [herr] at hok
    cases hok
  by_cases hboth : ret1 = true ∧ ret2 = true
  · rw [if_pos hboth] at h
    cases h
  · rw [if_neg hboth] at h
    cases hb with
    | first hn => exact hn ret1 h₁
    | second hn => exact hn ret2 h₂
    | both hp₁ hp₂ =>
      exact hboth ⟨Except.ok.inj (h₁.symm.trans hp₁), Except.ok.inj (h₂.symm.trans hp₂)⟩
    | addFirst hp₁ hv =>
      rw [if_pos (Except.ok.inj (h₁.symm.trans hp₁)), bind_eq_ok] at h
      obtain ⟨_, _, h⟩ := h
      rw [bind_eq_ok] at h
      obtain ⟨iterG, hok, _⟩ := h
      exact hadd hv iterG hok
    | addSecond hp₂ hv =>
      have hret2 : ret2 = true := Except.ok.inj (h₂.symm.trans hp₂)
      rw [if_neg (fun hret1 => hboth ⟨hret1, hret2⟩), if_pos hret2, bind_eq_ok] at h
      obtain ⟨_, _, h⟩ := h
      rw [bind_eq_ok] at h
      obtain ⟨iterG, hok, _⟩ := h
      exact hadd hv iterG hok

/-- A blocked pair keeps the loop from returning `True`. -/
theorem boundPairs_blocked {ps iterConn : List (Edge × Edge)} (hps : ps.Subperm iterConn)
    (hb : ∃ p ∈ ps, Blocked g.nNodes k nid2rank p) (g' : ArgumentedPolyGraph κ) :
    boundPairs k nid2rank ps g iterConn ≠ .ok (true, g') := by
  induction ps generalizing g iterConn with
  | nil =>
    obtain ⟨p, hp, _⟩ := hb
    cases hp
  | cons p ps ih =>
    by_cases hp : Blocked g.nNodes k nid2rank p
    · exact boundPairs_ne_of_blocked hp g'
    · obtain ⟨g₁, iterConn', hrun, hrest, hn, _⟩ := boundPairs_cons hps hp
      rw [hrun]
      refine ih hrest ?_
      obtain ⟨q, hq, hbq⟩ := hb
      rcases List.mem_cons.mp hq with rfl | hq
      · exact absurd hbq hp
      · exact ⟨q, hq, hn.symm ▸ hbq⟩

end Loop

section Removals

variable {κ : Type}

/-- What the call is meant to leave behind when it returns `True`: the picked side of
every decided pair as an edge, the undecided pairs, and `G` as it was. -/
structure Replaced (k : ℚ) (nid2rank : Dict Nat Nat)
    (G G' iterG : ArgumentedPolyGraph κ) : Prop where
  pairs : ∀ p, p ∈ iterG.edgePairs ↔
    p ∈ G.edgePairs ∧ ¬ Picked k nid2rank p.1 ∧ ¬ Picked k nid2rank p.2
  nNodes : iterG.nNodes = G.nNodes
  before : ∀ a b, iterG.Before a b ↔ G.Before a b ∨ ∃ p ∈ G.edgePairs,
    (Picked k nid2rank p.1 ∧ p.1.before = (a, b)) ∨ (Picked k nid2rank p.2 ∧ p.2.before = (a, b))
  unchanged : G' = G

theorem kBoundedConstraints_eq_ok {o : SetOrder} {k : ℚ} {nid2rank : Dict Nat Nat}
    {G iterG G' iterG' : ArgumentedPolyGraph κ}
    {ret : Bool} : kBoundedConstraints o k G iterG nid2rank = .ok (ret, G', iterG') ↔
      boundPairs k nid2rank (o.iter G.edgePairs) iterG (o.iter iterG.edgePairs) =
      .ok (ret, iterG') ∧ G' = G := by
  simp only [kBoundedConstraints, ArgumentedPolyGraph.get4tuples, bind_eq_ok]
  constructor
  · rintro ⟨⟨ret', g'⟩, h, he⟩
    cases he
    exact ⟨h, rfl⟩
  · rintro ⟨h, rfl⟩
    exact ⟨_, h, rfl⟩

/-- The call replaces the decided pairs exactly if there is none, or if some pair
keeps it from returning `True`. -/
theorem replaced_iff (o : SetOrder) (k : ℚ) (G : ArgumentedPolyGraph κ) (nid2rank : Dict Nat Nat) :
    (∀ G' iterG, kBoundedConstraints o k G G nid2rank = .ok (true, G', iterG) →
      Replaced k nid2rank G G' iterG) ↔
      (∀ p ∈ G.edgePairs, ¬ Picked k nid2rank p.1 ∧ ¬ Picked k nid2rank p.2) ∨
        ∃ p ∈ G.edgePairs, Blocked G.nNodes k nid2rank p := by
  by_cases hb : ∃ p ∈ G.edgePairs, Blocked G.nNodes k nid2rank p
  · refine ⟨fun _ => .inr hb, fun _ G' iterG h => ?_⟩
    obtain ⟨p, hp, hbp⟩ := hb
    exact absurd (kBoundedConstraints_eq_ok.mp h).1
      (boundPairs_blocked (List.Subperm.refl _) ⟨p, (SetOrder.mem_iter o _ p).mpr hp, hbp⟩ iterG)
  · have hpass : ∀ p ∈ o.iter G.edgePairs, ¬ Blocked G.nNodes k nid2rank p :=
      fun p hp hbp => hb ⟨p, (SetOrder.mem_iter o _ p).mp hp, hbp⟩
    obtain ⟨iterG, hrun, hadd⟩ := boundPairs_added (List.Subperm.refl _) hpass
    have hok := kBoundedConstraints_eq_ok.mpr ⟨hrun, rfl⟩
    constructor
    · intro h
      -- the pairs are still there, so none of them was decided
      refine .inl (fun p hp => ((h G iterG hok).pairs p |>.mp ?_).2)
      rw [hadd.edgePairs]
      exact hp
    · rintro (hnone | hb') G' iterG' h
      · rw [hok] at h
        cases h
        refine ⟨fun p => ?_, hadd.nNodes, fun a b => ?_, rfl⟩
        · rw [hadd.edgePairs]
          exact ⟨fun hp => ⟨hp, hnone p hp⟩, And.left⟩
        · rw [hadd.before]
          simp only [SetOrder.mem_iter]
      · exact absurd hb' hb

/-- Two writers of a key, one session after the other. -/
def twoWriters : List (Entry (Mop Nat Value)) :=
  [⟨0, none⟩, ⟨1, some [.w 1 (.int 5) true]⟩, ⟨2, some [.w 1 (.int 6) true]⟩]

def twoWritersGraph : ArgumentedPolyGraph Nat :=
  ((AdyaSI.constructGraphFromLog .stored twoWriters
    [[⟨1, some [.w 1 (.int 5) true]⟩, ⟨2, some [.w 1 (.int 6) true]⟩]]
    true false).toOption).getD (.init 0)

/-- The ranks along the session. -/
def twoWritersRanks : Dict Nat Nat :=
  [1, 2, 3, 4, 5, 6].zipIdx.foldl (fun d p => d.set p.1 p.2) Dict.empty

theorem twoWriters_first : Picked (6 / 10) twoWritersRanks ⟨1, 2, .ww⟩ := by
  have hrun : pickThisEdgePair ⟨1, 2, .ww⟩ (6 / 10) twoWritersRanks =
      .ok (decide (((3 : Nat) : ℚ) + 6 / 10 < ((4 : Nat) : ℚ))) := rfl
  rw [Picked, hrun]
  norm_num

theorem twoWriters_second : pickThisEdgePair ⟨2, 1, .ww⟩ (6 / 10) twoWritersRanks = .ok false := by
  have hrun : pickThisEdgePair ⟨2, 1, .ww⟩ (6 / 10) twoWritersRanks =
      .ok (decide (((5 : Nat) : ℚ) + 6 / 10 < ((2 : Nat) : ℚ))) := rfl
  rw [hrun]
  norm_num

/-- The first `k` that the entrance tries adds the order of the writers, and the pair
is still there. -/
theorem twoWriters_not_replaced :
    twoWritersGraph.myTopoSort 7 .stored = fueled (.ok (twoWritersRanks, [1, 2, 3, 4, 5, 6])) ∧
      ¬ ∀ G' iterG, kBoundedConstraints .stored
        (6 / 10) twoWritersGraph twoWritersGraph twoWritersRanks =
          .ok (true, G', iterG) → Replaced (6 / 10) twoWritersRanks twoWritersGraph G' iterG := by
  refine ⟨rfl, fun h => ?_⟩
  have hpairs : SetOrder.stored.iter twoWritersGraph.edgePairs = [(⟨1, 2, .ww⟩, ⟨2, 1, .ww⟩)] := rfl
  have hpass : ∀ p ∈ SetOrder.stored.iter twoWritersGraph.edgePairs,
      ¬ Blocked twoWritersGraph.nNodes (6 / 10) twoWritersRanks p := by
    intro p hp hb
    rw [hpairs, List.mem_singleton] at hp
    subst hp
    cases hb with
    | first hn => exact hn true twoWriters_first
    | second hn => exact hn false twoWriters_second
    | both _ h₂ => exact not_picked twoWriters_second h₂
    | addFirst _ hv => exact hv ⟨by decide, by decide, by decide⟩
    | addSecond h₂ _ => exact not_picked twoWriters_second h₂
  obtain ⟨iterG, hrun, hadd⟩ := boundPairs_added (List.Subperm.refl _) hpass
  have hreplaced := h twoWritersGraph iterG (kBoundedConstraints_eq_ok.mpr ⟨hrun, rfl⟩)
  have hmem : (⟨1, 2, .ww⟩, ⟨2, 1, .ww⟩) ∈ iterG.edgePairs := by
    rw [hadd.edgePairs]
    decide
  exact ((hreplaced.pairs _).mp hmem).2.1 twoWriters_first

end Removals

end PairHeuristic

end Viper
