import Viper.Polygraph
import Viper.SnapshotIsolation

/-!
# The edge-weight encoding and its size limit

Algorithm 2 asks for pairwise distinct timestamps of `MONO_BV_WIDTH` bits and
for a weighted graph without short cycles. On the polygraphs of the plain
builder the graph part adds nothing to the timestamps, but the timestamps run
out: the encoding is satisfiable iff some order respects the polygraph and the
two events of every transaction fit into the width.
-/
namespace Viper

open Py GraphSat

namespace MonoSATEdgeWeightSIChecker

variable {n : Nat} {E : List Edge} {P : List (Edge × Edge)}

section Encoding

/-- The nodes and timestamps of all transactions. -/
theorem addTimestamps_eq (n : Nat) : (List.range n).foldl addTimestamps newSolver =
    ⟨n, [], List.replicate (2 * n) MONO_BV_WIDTH,
      (List.range n).map fun i => .bvLt (beginTimestamp i) (commitTimestamp i)⟩ := by
  induction n with
  | zero => rfl
  | succ n ih =>
    rw [List.range_succ, List.foldl_append, ih, List.map_append]
    simp [addTimestamps, Solver.addNode, Solver.bitVector, Solver.assert, beginTimestamp,
      commitTimestamp, Nat.mul_succ, List.replicate_succ']

theorem foldl_assert (st : Solver) (fs : List Formula) :
    fs.foldl (fun st f => st.assert f) st = { st with asserts := st.asserts ++ fs } := by
  induction fs generalizing st with
  | nil => simp
  | cons f fs ih =>
    rw [List.foldl_cons, ih]
    simp [Solver.assert]

def timeHolds (β : Nat → Nat) (e : Edge) : Prop :=
  match e.type with
  | .rw => β (beginTimestamp e.src) < β (commitTimestamp e.dst)
  | _ => β (commitTimestamp e.src) < β (beginTimestamp e.dst)

theorem over_timeDeps (e : Edge) : (createTimeDeps e).Over 0 0 := by
  obtain ⟨src, dst, type⟩ := e
  cases type <;> trivial

theorem eval_timeDeps (A : Rel) (L : Nat → Prop) (β : Nat → Nat) (e : Edge) :
    eval A L β (createTimeDeps e) ↔ timeHolds β e := by
  obtain ⟨src, dst, type⟩ := e
  cases type <;> exact Iff.rfl

theorem encodes_assertTimed (β : Nat → Nat) (e : Edge) : Encodes (fun st => assertTimed st e) β
    (fun H => H e.src e.dst (type2weight e.type) ∧ timeHolds β e) := by
  have h := (encodes_edge e.src e.dst (type2weight e.type) β).comp (encodes_bv (over_timeDeps e) β)
  simp only [eval_timeDeps] at h
  exact h

theorem encodes_assertTimedXor (β : Nat → Nat) (p : Edge × Edge) :
    Encodes (fun st => assertTimedXor st p) β
    (fun H => (H p.1.src p.1.dst (type2weight p.1.type) ∧ timeHolds β p.1) ∨
      (H p.2.src p.2.dst (type2weight p.2.type) ∧ timeHolds β p.2)) := by
  have h := encodes_xor [(p.1.src, p.1.dst, type2weight p.1.type)]
    [(p.2.src, p.2.dst, type2weight p.2.type)] (by simp) (by simp)
    (fun m => (demands_lit m β).conj (over_timeDeps p.1))
      (fun m => (demands_lit m β).conj (over_timeDeps p.2))
  have he : (fun st => assertTimedXor st p) = fun st => extend st
      ([(p.1.src, p.1.dst, type2weight p.1.type)] ++ [(p.2.src, p.2.dst, type2weight p.2.type)])
      (.xor (.conj (.lit st.edges.length) (createTimeDeps p.1))
        (.conj (.lit (st.edges.length + [(p.1.src, p.1.dst, type2weight p.1.type)].length))
          (createTimeDeps p.2))) := by
    funext st
    simp [assertTimedXor, extend, Solver.assert, Solver.addEdge]
  rw [he]
  refine ⟨h.keeps, fun hs H => ?_, h.bvs⟩
  rw [h.within hs]
  have hone : ∀ e : Edge, (∀ u v w, (u, v, w) ∈ [(e.src, e.dst, type2weight e.type)] → H u v w) ↔
      H e.src e.dst (type2weight e.type) := by
    intro e
    constructor
    · exact fun h => h _ _ _ (List.mem_singleton.mpr rfl)
    · intro h u v w hm
      cases List.mem_singleton.mp hm
      exact h
  rw [hone, hone, eval_timeDeps, eval_timeDeps, true_and, true_and]

end Encoding

/-- What a model of the encoding consists of: timestamps and allowed edges. -/
structure Model (n : Nat) (E : List Edge) (P : List (Edge × Edge)) (β : Nat → Nat)
    (H : Rel) : Prop where
  width : ∀ u, u < 2 * n → β u < 2 ^ MONO_BV_WIDTH
  begins : ∀ i, i < n → β (beginTimestamp i) < β (commitTimestamp i)
  distinct : ∀ u v, u < 2 * n → v < 2 * n → u ≠ v → β u ≠ β v
  known : ∀ e ∈ E, H e.src e.dst (type2weight e.type) ∧ timeHolds β e
  pairs : ∀ p ∈ P, (H p.1.src p.1.dst (type2weight p.1.type) ∧ timeHolds β p.1) ∨
    (H p.2.src p.2.dst (type2weight p.2.type) ∧ timeHolds β p.2)
  short : ∀ q ∈ pairsOf (List.range n), eval H (fun _ => False) β (noShortCycle q)

section Timestamps

variable {n : Nat} {β : Nat → Nat}

theorem scoped_timestamps : Scoped ((List.range n).foldl addTimestamps newSolver) := by
  rw [addTimestamps_eq]
  intro f hf
  obtain ⟨i, _, rfl⟩ := List.mem_map.mp hf
  trivial

theorem within_timestamps {H : Rel} : Within ((List.range n).foldl addTimestamps newSolver) H β ↔
    ∀ i, i < n → β (beginTimestamp i) < β (commitTimestamp i) := by
  rw [addTimestamps_eq]
  constructor
  · rintro ⟨L, hL, _⟩ i hi
    exact hL _ (List.mem_map.mpr ⟨i, List.mem_range.mpr hi, rfl⟩)
  · intro h
    refine ⟨fun _ => False, fun f hf => ?_, fun _ _ _ ⟨_, _, hl⟩ => False.elim hl⟩
    obtain ⟨i, hi, rfl⟩ := List.mem_map.mp hf
    exact h i (List.mem_range.mp hi)

theorem inWidth_timestamps {st : Solver}
    (hst : st.bvs = ((List.range n).foldl addTimestamps newSolver).bvs) :
    InWidth st β ↔ ∀ u, u < 2 * n → β u < 2 ^ MONO_BV_WIDTH := by
  rw [InWidth, hst, addTimestamps_eq]
  simp only [List.getElem?_replicate]
  constructor
  · exact fun h u hu => h u MONO_BV_WIDTH (by rw [if_pos hu])
  · intro h u w hw
    split at hw
    · rename_i hu
      cases hw
      exact h u hu
    · cases hw

/-- The assertions on all pairs make the timestamps different. -/
theorem distinct_timestamps {m : Nat} : (∀ q ∈ pairsOf (List.range m), β q.1 ≠ β q.2) ↔
    ∀ u v, u < m → v < m → u ≠ v → β u ≠ β v := by
  constructor
  · intro h u v hu hv hne
    rcases (mem_pairsOf List.nodup_range).mpr
      ⟨List.mem_range.mpr hu, List.mem_range.mpr hv, hne⟩ with hm | hm
    · exact h _ hm
    · exact (h _ hm).symm
  · intro h q hq
    obtain ⟨hu, hv, hne⟩ := (mem_pairsOf List.nodup_range).mp (.inl hq)
    exact h _ _ (List.mem_range.mp hu) (List.mem_range.mp hv) hne

end Timestamps

theorem satisfiable_iff_model {κ : Type} :
    Satisfiable (check n E P (none : Option (Dict κ (List Nat)))) ↔ ∃ β H, Model n E P β H := by
  let st₀ : Solver := (List.range n).foldl addTimestamps newSolver
  let step : Solver → Solver := fun st => P.foldl assertTimedXor (E.foldl assertTimed
    ((pairsOf (List.range (2 * n))).foldl (fun st q => st.assert (.bvNe q.1 q.2)) st))
  have henc : ∀ β, Encodes step β _ := fun β =>
    ((Encodes.foldl (l := pairsOf (List.range (2 * n)))
      (fun q _ => encodes_bv (f := .bvNe q.1 q.2) trivial β)).comp
      (Encodes.foldl (l := E) (fun e _ => encodes_assertTimed β e))).comp
      (Encodes.foldl (l := P) (fun p _ => encodes_assertTimedXor β p))
  have hcheck : check n E P (none : Option (Dict κ (List Nat))) =
      { step st₀ with asserts := (step st₀).asserts ++
        (pairsOf (List.range n)).map noShortCycle } := by
    rw [← foldl_assert, List.foldl_map]
    rfl
  have hanti : ∀ g ∈ (pairsOf (List.range n)).map noShortCycle, Antitone g := by
    intro g hg
    obtain ⟨q, _, rfl⟩ := List.mem_map.mp hg
    exact antitone_distances q.1 q.2 0 q.2 q.1 1
  rw [hcheck, satisfiable_iff ((henc (fun _ => 0)).keeps scoped_timestamps) _ hanti]
  refine exists_congr fun β => ?_
  have hwidth : InWidth (step st₀) β ↔ _ := inWidth_timestamps ((henc β).bvs st₀)
  simp only [hwidth, (henc β).within scoped_timestamps, st₀, within_timestamps, List.mem_map,
    forall_exists_index, and_imp, forall_apply_eq_imp_iff₂]
  constructor
  · rintro ⟨hw, H, ⟨hb, ⟨hd, hk⟩, hp⟩, hs⟩
    exact ⟨H, hw, hb, distinct_timestamps.mp hd, hk, hp, hs⟩
  · rintro ⟨H, hw, hb, hd, hk, hp, hs⟩
    exact ⟨hw, H, ⟨hb, ⟨distinct_timestamps.mpr hd, hk⟩, hp⟩, hs⟩

/-- The two timestamps of every transaction are different numbers of the width. -/
theorem Model.size {β : Nat → Nat} {H : Rel} (h : Model n E P β H) : 2 * n ≤ 2 ^ MONO_BV_WIDTH := by
  have hinj : Set.InjOn β (Finset.range (2 * n)) := by
    intro u hu v hv he
    simp only [Finset.coe_range, Set.mem_Iio] at hu hv
    by_contra hne
    exact h.distinct u v hu hv hne he
  have hcard := Finset.card_le_card_of_injOn (t := Finset.range (2 ^ MONO_BV_WIDTH)) β
    (fun u hu => by simpa using h.width u (by simpa using hu)) hinj
  simpa using hcard

/-- When an event happens in a model. -/
def modelTime (β : Nat → Nat) : Event → Int
  | .s i => β (beginTimestamp i)
  | .c i => β (commitTimestamp i)

/-- The timestamps of a model order the events. -/
theorem Model.exists_order {β : Nat → Nat} {H : Rel} (h : Model n E P β H) :
    ∃ _ : LinearOrder Event, PairOrder n E P := by
  have hdep : ∀ e, timeHolds β e → modelTime β e.before.1 < modelTime β e.before.2 := by
    rintro ⟨src, dst, type⟩ he
    cases type <;> exact Int.ofNat_lt.mpr he
  refine exists_order_of_times (modelTime β) (fun i hi => Int.ofNat_lt.mpr (h.begins i hi))
    (fun e he => hdep e (h.known e he).2) (fun p hp => ?_)
  rcases h.pairs p hp with ⟨_, h₁⟩ | ⟨_, h₂⟩
  · exact .inl (hdep _ h₁)
  · exact .inr (hdep _ h₂)

section FromOrder

variable [LinearOrder Event]

/-- Timestamps and edges read off an order. -/
noncomputable def orderTime (n : Nat) (u : Nat) : Nat :=
  timestamp n (if u % 2 = 0 then .s (u / 2) else .c (u / 2))

def orderEdge (n : Nat) : Rel := fun u v w =>
  u < n ∧ ((w = 0 ∧ Event.c u < Event.s v) ∨ (w = 1 ∧ Event.s u < Event.c v))

theorem orderTime_begin (i : Nat) : orderTime n (beginTimestamp i) = timestamp n (.s i) := by
  simp [orderTime, beginTimestamp]

theorem orderTime_commit (i : Nat) : orderTime n (commitTimestamp i) = timestamp n (.c i) := by
  have h : (2 * i + 1) / 2 = i := by omega
  simp [orderTime, commitTimestamp, h]

theorem orderEdge_of_holds {e : Edge} (hs : e.src < n) (h : e.Holds) :
    orderEdge n e.src e.dst (type2weight e.type) ∧ timeHolds (orderTime n) e := by
  have ht : timestamp n e.before.1 < timestamp n e.before.2 :=
    timestamp_lt (by rw [e.idx_src]; exact hs) h
  obtain ⟨src, dst, type⟩ := e
  cases type with
  | rw =>
    refine ⟨⟨hs, .inr ⟨rfl, h⟩⟩, ?_⟩
    simpa only [timeHolds, orderTime_begin, orderTime_commit, Edge.before] using ht
  | wr | ww | cb =>
    refine ⟨⟨hs, .inl ⟨rfl, h⟩⟩, ?_⟩
    simpa only [timeHolds, orderTime_begin, orderTime_commit, Edge.before] using ht

/-- A path without anti-dependencies orders commit before begin, one with a
single anti-dependency begin before commit. -/
theorem path_order (hb : ∀ i, i < n → Event.s i < Event.c i) {u v d : Nat}
    (p : Path (orderEdge n) u v d)
    (hv : v < n) : u < n ∧ (d = 0 → u = v ∨ Event.c u < Event.s v) ∧
    (d = 1 → Event.s u < Event.c v) := by
  induction p with
  | nil u => exact ⟨hv, fun _ => .inl rfl, fun h => absurd h (by decide)⟩
  | @cons u x v w d hux _ ih =>
    obtain ⟨hx, ih₀, ih₁⟩ := ih hv
    obtain ⟨hu, hux⟩ := hux
    have hsu := hb u hu
    have hsx := hb x hx
    have hsv := hb v hv
    refine ⟨hu, fun hd => ?_, fun hd => ?_⟩
    · rcases hux with ⟨rfl, h⟩ | ⟨rfl, _⟩
      · rcases ih₀ (by omega) with rfl | h'
        · exact .inr h
        · exact .inr (by order)
      · omega
    · rcases hux with ⟨rfl, h⟩ | ⟨rfl, h⟩
      · have h' := ih₁ (by omega)
        order
      · rcases ih₀ (by omega) with rfl | h'
        · exact h
        · order

theorem orderEdge_short (hb : ∀ i, i < n → Event.s i < Event.c i) {i j : Nat} (hi : i < n)
    (hj : j < n) (hne : i ≠ j)
    (β : Nat → Nat) : eval (orderEdge n) (fun _ => False) β (noShortCycle (i, j)) := by
  rintro ⟨⟨d, hd, p⟩, ⟨d', hd', q⟩⟩
  have h₁ : Event.c i < Event.s j := ((path_order hb p hj).2.1 (by omega)).resolve_left hne
  have h₂ : Event.s j < Event.c i := by
    obtain ⟨_, h₀, h₁⟩ := path_order hb q hi
    have hsi := hb i hi
    have hsj := hb j hj
    rcases Nat.le_one_iff_eq_zero_or_eq_one.mp hd' with hz | ho
    · have hlt := (h₀ hz).resolve_left (Ne.symm hne)
      order
    · exact h₁ ho
  exact lt_asymm h₁ h₂

/-- An order whose events fit into the width is a model. -/
theorem model_of_order (hP : Paired n E P) (h : PairOrder n E P) (hn : 2 * n ≤ 2 ^ MONO_BV_WIDTH) :
    Model n E P (orderTime n) (orderEdge n) where
  width u hu := by
    refine Nat.lt_of_lt_of_le (timestamp_lt_two_mul ?_) hn
    split <;> simp only [Event.idx] <;> omega
  begins i hi := by
    rw [orderTime_begin, orderTime_commit]
    exact timestamp_lt hi (h.begins i hi)
  distinct u v hu hv hne he := by
    refine hne ?_
    have := timestamp_inj (n := n) (by split <;> simp only [Event.idx] <;> omega)
      (by split <;> simp only [Event.idx] <;> omega) he
    split at this <;> split at this
    · have h₁ := Event.s.inj this
      omega
    · cases this
    · cases this
    · have h₁ := Event.c.inj this
      omega
  known e he := orderEdge_of_holds (hP.src_lt e he) (h.known e he)
  pairs p hp := by
    have hsrc : p.1.src < n ∧ p.2.src < n := by
      rcases hP.pairs p hp with ⟨x, i, j, hs, rfl | rfl⟩ | ⟨i, j, hi, hj, _, _, _, rfl⟩
      · exact ⟨hs.lt.1, hs.lt.2.2⟩
      · exact ⟨hs.lt.2.2, hs.lt.1⟩
      · exact ⟨hi, hj⟩
    exact (h.pairs p hp).imp (orderEdge_of_holds hsrc.1) (orderEdge_of_holds hsrc.2)
  short q hq := by
    obtain ⟨hi, hj, hne⟩ := (mem_pairsOf List.nodup_range).mp (.inl hq)
    exact orderEdge_short h.begins (List.mem_range.mp hi) (List.mem_range.mp hj) hne _

end FromOrder

/-- The encoding is satisfiable iff an order exists and the width suffices. -/
theorem satisfiable_iff_order {κ : Type} (hP : Paired n E P) :
    Satisfiable (check n E P (none : Option (Dict κ (List Nat)))) ↔
      2 * n ≤ 2 ^ MONO_BV_WIDTH ∧ ∃ _ : LinearOrder Event, PairOrder n E P := by
  rw [satisfiable_iff_model]
  constructor
  · rintro ⟨β, H, h⟩
    exact ⟨h.size, h.exists_order⟩
  · rintro ⟨hn, _, h⟩
    exact ⟨_, _, model_of_order hP h hn⟩

end MonoSATEdgeWeightSIChecker

section Agreement

variable {κ : Type} [LinearOrder κ] [ToString κ]

/-- Some order of the events explains the history. -/
def Explainable (H : List (Entry (Mop κ Value))) (histories : List (List (Entry (Mop κ Value))))
    (strongSession : Bool) : Prop :=
  ∃ initial, initialState H = .ok initial ∧
    ∃ _ : LinearOrder Event, Explained H (KnownStep H histories strongSession initial Prod.snd [])

theorem pairOrder_iff_explainable {o : SetOrder} {H : List (Entry (Mop κ Value))}
    {histories : List (List (Entry (Mop κ Value)))} {strongSession : Bool} {t : Tables κ}
    {G : ArgumentedPolyGraph κ}
    (hb : AdyaSI.Built o H histories strongSession false t G) (ht : t.Of H) :
    (∃ _ : LinearOrder Event, PairOrder G.nNodes (G.edgeList o) (o.iter G.edgePairs)) ↔
      Explainable H histories strongSession := by
  rw [← hb.pairOrder_iff ht, hb.satisfiable_iff ht]
  constructor
  · exact fun h => ⟨t.initial, ht.initial, h⟩
  · rintro ⟨initial, hi, h⟩
    obtain rfl : t.initial = initial := Except.ok.inj (ht.initial.symm.trans hi)
    exact h

/-- Algorithm 2 agrees with algorithm 4 on a graph of the plain builder exactly
up to the size its timestamps allow, or where both reject. -/
theorem edgeWeight_agrees_iff (o : SetOrder) (H : List (Entry (Mop κ Value)))
    (histories : List (List (Entry (Mop κ Value)))) (strongSession : Bool)
    (G : ArgumentedPolyGraph κ)
    (hG : AdyaSI.constructGraphFromLog o H histories strongSession false = .ok G) :
    let (n, edges, edgePairs, extWrites) := G.get4tuples o
    (Satisfiable
      (MonoSATEdgeWeightSIChecker.check n edges edgePairs (none : Option (Dict κ (List Nat)))) ↔
        Satisfiable (MonoBCPolyGraphChecker.check n edges edgePairs (some extWrites))) ↔
      H.length ≤ 2 ^ (MONO_BV_WIDTH - 1) ∨ ¬ Explainable H histories strongSession := by
  obtain ⟨t, ht, hb⟩ := AdyaSI.built_of_ok hG
  have hsize : 2 * G.nNodes ≤ 2 ^ MONO_BV_WIDTH ↔ H.length ≤ 2 ^ (MONO_BV_WIDTH - 1) := by
    rw [hb.nNodes, MONO_BV_WIDTH]
    omega
  have h₂ := MonoSATEdgeWeightSIChecker.satisfiable_iff_order (κ := κ) (hb.paired ht)
  have h₄ := hb.pairOrder_iff ht
  rw [hsize, pairOrder_iff_explainable hb ht] at h₂
  rw [pairOrder_iff_explainable hb ht] at h₄
  simp only [ArgumentedPolyGraph.get4tuples, h₂, h₄]
  tauto

theorem edgeWeight_agrees_iff_small :
    ∃ G, AdyaSI.constructGraphFromLog .stored smallHistory smallSessions true false = .ok G ∧
      let (n, edges, edgePairs, extWrites) := G.get4tuples .stored
      ((Satisfiable
        (MonoSATEdgeWeightSIChecker.check n edges edgePairs (none : Option (Dict Nat (List Nat)))) ↔
          Satisfiable (MonoBCPolyGraphChecker.check n edges edgePairs (some extWrites))) ↔
        smallHistory.length ≤ 2 ^ (MONO_BV_WIDTH - 1) ∨
        ¬ Explainable smallHistory smallSessions true) := by
  obtain ⟨G, hG⟩ := small_built
  exact ⟨G, hG, edgeWeight_agrees_iff .stored smallHistory smallSessions true G hG⟩

/-- A log without an initial transaction whose transactions do nothing. -/
def idleHistory (n : Nat) : List (Entry (Mop Nat Value)) :=
  (List.range (n + 1)).map fun i => ⟨i, if i = 0 then none else some []⟩

theorem txnAt_idle {n i : Nat} {txn : List (Mop Nat Value)} (h : TxnAt (idleHistory n) i txn) :
    txn = [] := by
  obtain ⟨hi, e, he, hv⟩ := h
  simp only [idleHistory, List.getElem?_map, Option.map_eq_some_iff] at he
  obtain ⟨j, hj, rfl⟩ := he
  rw [List.getElem?_range (by
    have := (List.getElem?_eq_some_iff.mp hj).1
    simpa using this)] at hj
  cases hj
  simpa [Nat.pos_iff_ne_zero.mp hi, eq_comm] using hv

theorem simple_idle (n : Nat) : SimpleHistory (idleHistory n) where
  initial := ⟨⟨0, none⟩, by simp [idleHistory, List.range_succ_eq_map], rfl⟩
  complete i hi hn := by
    refine ⟨[], hi, ⟨i, some []⟩, ?_, rfl⟩
    have hlt : i < n + 1 := by simpa [idleHistory] using hn
    simp [idleHistory, hlt, Nat.pos_iff_ne_zero.mp hi]
  simple i txn ht mop hm := by
    rw [txnAt_idle ht] at hm
    cases hm
  internal i txn ht := by
    rw [txnAt_idle ht]
    rfl
  unique := by
    rintro i j i' j' k v ⟨txn, mop, ht, hj, _⟩
    rw [txnAt_idle ht] at hj
    cases hj

/-- Idle transactions commit in the order of their numbers. -/
def idleTime : Event → Nat
  | .s i => 2 * i
  | .c i => 2 * i + 1

theorem explainable_idle (n : Nat) : Explainable (idleHistory n) [] false := by
  have hno : ∀ {f : List (Mop Nat Value) → Except Err (Dict Nat Value)} {i k v},
      (∀ m, f [] = .ok m → m.get? k = none) → ¬ Has f (idleHistory n) i k v := by
    rintro f i k v hf ⟨txn, m, ht, hm, hk⟩
    rw [txnAt_idle ht] at hm
    rw [hf m hm] at hk
    cases hk
  have hw : ∀ {i k v}, ¬ Has extWritesFn (idleHistory n) i k v :=
    hno (fun m hm => by cases hm; rfl)
  have hr : ∀ {i k v}, ¬ Has extReadsFn (idleHistory n) i k v :=
    hno (fun m hm => by cases hm; rfl)
  obtain ⟨lo, hlt⟩ := Precedence.acyclic_iff_linearOrder.mp
    (Precedence.acyclic_of_map idleTime (r := fun a b => idleTime a < idleTime b) (fun _ _ h => h))
  have hfirst : ∀ i, 0 < i → Event.c 0 < Event.s i :=
    fun i hi => hlt _ _ (by simp only [idleTime]; omega)
  refine ⟨none, by simp [initialState, idleHistory, List.range_succ_eq_map], lo,
    fun i _ => hlt _ _ ?_, fun i hi _ => hfirst i hi, fun e he => ?_, ?_, ?_, ?_⟩
  · simp only [idleTime]
    omega
  · cases he with
    | session hs _ => cases hs
    | first hi _ => exact hfirst _ hi
    | read h _ => exact absurd h hw
    | initialRead h _ _ => exact absurd h hr
    | initialOther h _ _ _ _ => exact absurd h hr
    | final hx => cases hx
    | omitted _ hu _ =>
      obtain ⟨txn, _, _, ht, hj⟩ := hu
      rw [txnAt_idle ht] at hj
      cases hj
  · rintro k i j ⟨v, h⟩
    exact absurd h hw
  · rintro k i j ⟨v, h, _⟩
    exact absurd h hw
  · rintro k i j x ⟨v, h, _⟩
    exact absurd h hw

/-- With 513 transactions the timestamps of algorithm 2 run out, and it rejects a
history that algorithm 4 accepts. -/
theorem edgeWeight_rejects_idle :
    ∃ G, AdyaSI.constructGraphFromLog .stored (idleHistory 512) [] false false = .ok G ∧
      ¬ (let (n, edges, edgePairs, extWrites) := G.get4tuples .stored
        Satisfiable (MonoSATEdgeWeightSIChecker.check n edges edgePairs
          (none : Option (Dict Nat (List Nat)))) ↔
          Satisfiable (MonoBCPolyGraphChecker.check n edges edgePairs (some extWrites))) := by
  obtain ⟨t, hc, hi⟩ := AdyaSI.checked_of_simple [] false .stored (simple_idle 512)
    (fun txns h => by cases h)
  obtain ⟨initial, hinit, lo, hex⟩ := explainable_idle 512
  obtain ⟨G, hG, hb⟩ := hc.built (fun e he => by
    cases he with
    | dirtyRead _ _ hf _ => rw [hi] at hf; cases hf
    | final hx => cases hx
    | ownUpsert _ hu _ =>
      obtain ⟨txn, _, _, ht, hj⟩ := hu
      rw [txnAt_idle ht] at hj
      cases hj)
  refine ⟨G, hG, fun hagree => ?_⟩
  have h₄ := (hb.pairOrder_iff hc.tables).mpr
    ((pairOrder_iff_explainable hb hc.tables).mpr ⟨initial, hinit, lo, hex⟩)
  have h₂ := (MonoSATEdgeWeightSIChecker.satisfiable_iff_order (κ := Nat) (hb.paired hc.tables)).mp
    (hagree.mpr h₄)
  have hlen : G.nNodes = 513 := by rw [hb.nNodes]; simp [idleHistory]
  rw [hlen, MONO_BV_WIDTH] at h₂
  omega

end Agreement

end Viper
