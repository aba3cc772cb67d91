import Viper.Lib.Dependencies
import Viper.AppendVerdict
import Viper.Retry
import Viper.SnapshotIsolation

/-!
# Serialization graphs

The BC-polygraph puts the begin and commit events into the graph so that plain
acyclicity can be asked of it. On the transactions themselves the same question
is whether some cycle of dependencies has no two anti-dependencies in a row, the
cycles that snapshot isolation forbids. Here the two are related: for the
instantiations of an encoding, and for a history together with an order of its
versions.
-/
namespace Viper

open Py Precedence Dependencies

theorem endpoints_event : Endpoints Event.s Event.c where
  begin_inj _ _ h := Event.s.inj h
  commit_inj _ _ h := Event.c.inj h
  apart _ _ h := by cases h

section Instances

variable {κ : Type} (g : ArgumentedPolyGraph κ) (con : List Constraint) (side : Constraint → Bool)

/-- The typed edges of the instantiation that `side` chooses. -/
def InstEdge (e : Edge) : Prop :=
  (e.dst, e.type) ∈ g.edges e.src ∨ ∃ p ∈ con, e ∈ (if side p then p.1 else p.2)

/-- The edges of type `wr`, `ww` and `cb`. -/
def DepEdge (i j : Nat) : Prop := ∃ type, type ≠ EdgeType.rw ∧ InstEdge g con side ⟨i, j, type⟩

/-- The edges of type `rw`. -/
def AntiEdge (i j : Nat) : Prop := InstEdge g con side ⟨i, j, .rw⟩

/-- No cycle of the instantiation is without two anti-dependencies in a row. -/
def Serializable : Prop := Acyclic (Hop (DepEdge g con side) (AntiEdge g con side))

variable {g con side}

theorem Edge.before_dep {e : Edge} (h : e.type ≠ .rw) : e.before = (.c e.src, .s e.dst) := by
  obtain ⟨src, dst, type⟩ := e
  cases type with
  | rw => exact absurd rfl h
  | wr | ww | cb => rfl

theorem instEdge_before {e : Edge} (h : InstEdge g con side e) :
    BCEdge g con side e.before.1 e.before.2 := by
  cases h with
  | inl hm => exact .known ⟨e.src, e.dst, e.type, hm, rfl⟩
  | inr hc =>
    obtain ⟨p, hp, he⟩ := hc
    exact .chosen hp he

theorem step_of_instEdge {e : Edge} (h : InstEdge g con side e) :
    Step (· < g.nNodes) Event.s Event.c (DepEdge g con side)
      (AntiEdge g con side) e.before.1 e.before.2 := by
  by_cases ht : e.type = .rw
  · obtain ⟨src, dst, type⟩ := e
    obtain rfl : type = .rw := ht
    exact .anti h
  · rw [Edge.before_dep ht]
    exact .depends ⟨e.type, ht, h⟩

theorem bcEdge_iff_step (a b : Event) : BCEdge g con side a b ↔
    Step (· < g.nNodes) Event.s Event.c (DepEdge g con side) (AntiEdge g con side) a b := by
  constructor
  · intro h
    cases h with
    | begins hi => exact .begins hi
    | known hb =>
      obtain ⟨src, dst, type, hm, he⟩ := hb
      have hinst : InstEdge g con side ⟨src, dst, type⟩ := .inl hm
      have hstep := step_of_instEdge hinst
      rwa [he] at hstep
    | chosen hp he => exact step_of_instEdge (.inr ⟨_, hp, he⟩)
  · intro h
    cases h with
    | begins hi => exact .begins hi
    | depends hd =>
      obtain ⟨type, ht, he⟩ := hd
      have hb := instEdge_before he
      rwa [Edge.before_dep ht] at hb
    | anti ha => exact instEdge_before ha

/-- The BC graph of an instantiation is acyclic iff the instantiation is serializable. -/
theorem acyclic_bcEdge_iff (hin : ∀ e, InstEdge g con side e → e.dst < g.nNodes) :
    Acyclic (BCEdge g con side) ↔ Serializable g con side := by
  have hstep : BCEdge g con side =
      Step (· < g.nNodes) Event.s Event.c (DepEdge g con side) (AntiEdge g con side) := by
    funext a b
    exact propext (bcEdge_iff_step a b)
  rw [hstep]
  apply acyclic_iff endpoints_event
  intro i k hd
  obtain ⟨_, _, he⟩ := hd
  exact hin _ he

end Instances

section Encodings

variable {κ : Type} [LinearOrder κ] [ToString κ] {o : SetOrder} {g : ArgumentedPolyGraph κ}
  {con : List Constraint}

/-- T0 comes first in the encodings of both chain builders. -/
theorem EncodingOf.initial (h : EncodingOf o g con) {i : Nat} (h0 : 0 < i) (hi : i < g.nNodes) :
    g.Before (.c 0) (.s i) := by
  cases h with
  | chain _ _ hok =>
    obtain ⟨t, known, chains, _, hb, _, hp, _⟩ := AdyaSIChain.encoded_of_ok hok
    apply (hp.before _ _).mpr
    exact .inl ((hb.before _ _).mpr ⟨⟨0, i, .cb⟩, rfl, .first h0 (hb.nNodes ▸ hp.nNodes ▸ hi)⟩)
  | append _ hok =>
    obtain ⟨chains, readfrom, henc⟩ := Append.encoded_of_ok hok
    exact henc.initial h0 hi

/-- The checker of algorithms 5, 6 and 8 accepts an encoding iff one of its
instantiations is serializable. -/
theorem satisfiable_iff_serializable (o : SetOrder) (g : ArgumentedPolyGraph κ)
    (con : List Constraint) (h : EncodingOf o g con) :
    GraphSat.Satisfiable (MonoBCPolyGraphCheckerOptimized.check o g con) ↔
      ∃ side, Serializable g con side := by
  have hp := h.prunable
  rw [hp.satisfiable_iff, ← exists_acyclic_iff hp.bounded.inv (fun i h0 hi => h.initial h0 hi) o]
  apply exists_congr
  intro side
  apply acyclic_bcEdge_iff
  intro e he
  cases he with
  | inl hm => exact hp.bounded.dst_lt hm
  | inr hc =>
    obtain ⟨p, hmem, he⟩ := hc
    apply (hp.valid p hmem e ?_).2.1
    cases hs : side p with
    | true => exact .inl (by simpa [hs] using he)
    | false => exact .inr (by simpa [hs] using he)

theorem satisfiable_iff_serializable_racing : EncodingOf .stored racingEncoding.1 racingEncoding.2 ∧
    (GraphSat.Satisfiable
      (MonoBCPolyGraphCheckerOptimized.check .stored racingEncoding.1 racingEncoding.2) ↔
      ∃ side, Serializable racingEncoding.1 racingEncoding.2 side) :=
  ⟨encodingOf_racing,
    satisfiable_iff_serializable .stored racingEncoding.1 racingEncoding.2 encodingOf_racing⟩

end Encodings

section Histories

variable {κ : Type} [LinearOrder κ] {H : List (Entry (Mop κ Value))}

/-- The known edges of type `wr`, `ww` and `cb`, and those of type `rw`. -/
def KnownDep (known : Except Err Cmd → Prop) (i j : Nat) : Prop :=
  ∃ type, type ≠ EdgeType.rw ∧ known (.ok (.edge ⟨i, j, type⟩))

def KnownAnti (known : Except Err Cmd → Prop) (i j : Nat) : Prop := known (.ok (.edge ⟨i, j, .rw⟩))

/-- The serialization graph of a history, for an order of its versions. -/
abbrev DirectGraph (H : List (Entry (Mop κ Value))) (lt : κ → Nat → Nat → Prop)
    (D A : Nat → Nat → Prop) :
    Nat → Nat → Prop := Hop (Depends (workload H) lt D) (AntiDepends (workload H) lt A)

/-- Dependencies end inside the history. -/
theorem lt_of_depends {known : Except Err Cmd → Prop}
    (hin : ∀ e, known (.ok (.edge e)) → e.dst < H.length)
    {lt : κ → Nat → Nat → Prop} (hv : VersionOrder (workload H) lt) {i k : Nat}
    (hd : Depends (workload H) lt (KnownDep known) i k) : k < H.length := by
  cases hd with
  | other hd =>
    obtain ⟨_, _, hk⟩ := hd
    exact hin _ hk
  | ww hlt =>
    obtain ⟨v, hw⟩ := (hv.writes _ _ _ hlt).2
    exact hw.lt.2
  | wr hr =>
    obtain ⟨v, _, hr⟩ := hr
    exact hr.lt.2

theorem Explained.acyclic [LinearOrder Event] {known : Except Err Cmd → Prop}
    (h : Explained H known) (hin : ∀ e, known (.ok (.edge e)) → e.dst < H.length) :
    VersionOrder (workload H) (commitOrder (workload H) Event.s Event.c) ∧
      Acyclic (DirectGraph H (commitOrder (workload H) Event.s Event.c) (KnownDep known)
        (KnownAnti known)) := by
  have hsc : ∀ k i, (workload H).writes k i → Event.s i < Event.c i := by
    intro k i hw
    obtain ⟨v, hv⟩ := hw
    exact h.begins i hv.lt.2
  have hdep : ∀ i j, KnownDep known i j → Event.c i < Event.s j := by
    intro i j hd
    obtain ⟨type, ht, hk⟩ := hd
    exact (h.known _ hk).lt (Edge.before_dep (e := ⟨i, j, type⟩) ht)
  have hlast :
      ∀ i k, Depends (workload H) (commitOrder (workload H) Event.s Event.c) (KnownDep known) i k →
      k < H.length := fun i k hd => lt_of_depends hin (versionOrder_commitOrder hsc h.legal) hd
  refine ⟨versionOrder_commitOrder hsc h.legal, acyclic_of_map Event.c fun i j hop => ?_⟩
  apply Hop.lt (s := Event.s) ?_ ?_ hop
  · exact fun i k hd => ⟨hd.lt h.legal hdep, h.begins k (hlast i k hd)⟩
  · exact fun i j ha => ha.lt hsc h.legal (fun i j hk => h.known ⟨i, j, .rw⟩ hk)

theorem explained_of_acyclic {known : Except Err Cmd → Prop} {lt : κ → Nat → Nat → Prop}
    (hfirst : ∀ i, 0 < i → i < H.length → known (.ok (.edge ⟨0, i, .cb⟩)))
    (hin : ∀ e, known (.ok (.edge e)) → e.dst < H.length) (hv : VersionOrder (workload H) lt)
    (ha : Acyclic (DirectGraph H lt (KnownDep known) (KnownAnti known))) :
    ∃ _ : LinearOrder Event, Explained H known := by
  have hB : ∀ i k, Depends (workload H) lt (KnownDep known) i k → k < H.length :=
    fun i k hd => lt_of_depends hin hv hd
  obtain ⟨lo, hup⟩ :=
    acyclic_iff_linearOrder.mp ((acyclic_iff (B := (· < H.length)) endpoints_event hB).mpr ha)
  have hdep : ∀ i j, Depends (workload H) lt (KnownDep known) i j → Event.c i < Event.s j :=
    fun i j hd => hup _ _ (.depends hd)
  have hanti : ∀ i j, AntiDepends (workload H) lt (KnownAnti known) i j → Event.s i < Event.c j :=
    fun i j hd => hup _ _ (.anti hd)
  refine ⟨lo, fun i hi => hup _ _ (.begins hi),
    fun i h0 hi => hdep _ _ (.other ⟨.cb, by decide, hfirst i h0 hi⟩),
    fun e he => ?_, legal_of_versionOrder hv (fun k i j hr => ?_) hdep hanti⟩
  · by_cases ht : e.type = .rw
    · obtain ⟨src, dst, type⟩ := e
      obtain rfl : type = .rw := ht
      exact hanti _ _ (.other he)
    · rw [Edge.Holds, Edge.before_dep ht]
      exact hdep _ _ (.other ⟨e.type, ht, he⟩)
  · obtain ⟨v, hw, _⟩ := hr
    exact ⟨v, hw⟩

/-- Orders of the events and orders of the versions explain the same histories. -/
theorem exists_explained_iff {known : Except Err Cmd → Prop}
    (hfirst : ∀ i, 0 < i → i < H.length → known (.ok (.edge ⟨0, i, .cb⟩)))
    (hin : ∀ e, known (.ok (.edge e)) → e.dst < H.length) :
    (∃ _ : LinearOrder Event, Explained H known) ↔
      ∃ lt, VersionOrder (workload H) lt ∧
      Acyclic (DirectGraph H lt (KnownDep known) (KnownAnti known)) := by
  constructor
  · intro h
    obtain ⟨_, h⟩ := h
    exact ⟨_, h.acyclic hin⟩
  · intro h
    obtain ⟨lt, hv, ha⟩ := h
    exact explained_of_acyclic hfirst hin hv ha

end Histories

section Adya

variable {κ : Type} [LinearOrder κ]

/-- Dependencies that come from no version: T0 is first, and sessions are in order
when asked for. -/
def Precedes {μ : Type} (H : List (Entry μ)) (histories : List (List (Entry μ)))
    (strongSession : Bool) (i j : Nat) :
    Prop := (i = 0 ∧ 0 < j ∧ j < H.length) ∨ (strongSession = true ∧ Consecutive histories i j)

/-- Transaction `j` reads a version nobody wrote of a key that `x` writes, or a
query of `j` does not return a key that `x` upserts. -/
def Overlooks (H : List (Entry (Mop κ Value))) (j x : Nat) : Prop :=
  x ≠ j ∧
    ((∃ k v v', Has extReadsFn H j k v ∧ (∀ i, ¬ Has extWritesFn H i k v) ∧
      Has extWritesFn H x k v') ∨
    ∃ m k p, Omits H j m k ∧ UpsertAt H x p k)

/-- An order of the versions under which no cycle of the serialization graph is
without two anti-dependencies in a row. -/
structure AdyaIsolated (H : List (Entry (Mop κ Value)))
    (histories : List (List (Entry (Mop κ Value))))
    (strongSession : Bool) (lt : κ → Nat → Nat → Prop) : Prop where
  versions : VersionOrder (workload H) lt
  acyclic : Acyclic (DirectGraph H lt (Precedes H histories strongSession) (Overlooks H))
  /-- a query returns the keys its transaction has upserted before -/
  ownUpserts : ∀ q m k, Omits H q m k → ∀ p, p ≤ m → ¬ UpsertAt H q p k

variable [ToString κ] {H : List (Entry (Mop κ Value))}
  {histories : List (List (Entry (Mop κ Value)))} {strongSession : Bool} {limit : Nat × Nat → Nat}

theorem depends_known_iff (lt : κ → Nat → Nat → Prop) (i j : Nat) :
    Depends (workload H) lt (KnownDep (KnownStep H histories strongSession none limit [])) i j ↔
      Depends (workload H) lt (Precedes H histories strongSession) i j := by
  constructor
  · intro h
    cases h with
    | ww hlt => exact .ww hlt
    | wr hr => exact .wr hr
    | other hd =>
      obtain ⟨type, ht, hk⟩ := hd
      cases hk with
      | session hs hc => exact .other (.inr ⟨hs, hc⟩)
      | first h0 hn => exact .other (.inl ⟨rfl, h0, hn⟩)
      | read hw hr => exact .wr ⟨_, hw, hr⟩
      | initialRead hr _ _ => exact .other (.inl ⟨rfl, hr.lt.1, hr.lt.2⟩)
      | initialOther _ _ _ _ _ => exact absurd rfl ht
      | omitted _ _ _ => exact absurd rfl ht
      | final hx => cases hx
  · intro h
    cases h with
    | ww hlt => exact .ww hlt
    | wr hr => exact .wr hr
    | other hd =>
      cases hd with
      | inl hf =>
        obtain ⟨rfl, h0, hn⟩ := hf
        exact .other ⟨.cb, by decide, .first h0 hn⟩
      | inr hs => exact .other ⟨.cb, by decide, .session hs.1 hs.2⟩

theorem antiDepends_known_iff (lt : κ → Nat → Nat → Prop) (i j : Nat) :
    AntiDepends (workload H) lt
      (KnownAnti (KnownStep H histories strongSession none limit [])) i j ↔
      AntiDepends (workload H) lt (Overlooks H) i j := by
  constructor
  · intro h
    cases h with
    | rw hr hlt hne => exact .rw hr hlt hne
    | other hk =>
      cases hk with
      | initialOther hr hno _ hw hne => exact .other ⟨hne, .inl ⟨_, _, _, hr, hno, hw⟩⟩
      | omitted hom hu hne => exact .other ⟨hne, .inr ⟨_, _, _, hom, hu⟩⟩
      | final hx => cases hx
  · intro h
    cases h with
    | rw hr hlt hne => exact .rw hr hlt hne
    | other ho =>
      obtain ⟨hne, ho⟩ := ho
      cases ho with
      | inl hi =>
        obtain ⟨k, v, v', hr, hno, hw⟩ := hi
        exact .other (.initialOther hr hno rfl hw hne)
      | inr hq =>
        obtain ⟨m, k, p, hom, hu⟩ := hq
        exact .other (.omitted hom hu hne)

/-- The graph of the known edges is the serialization graph of the history. -/
theorem directGraph_known (lt : κ → Nat → Nat → Prop) :
    DirectGraph H lt (KnownDep (KnownStep H histories strongSession none limit []))
        (KnownAnti (KnownStep H histories strongSession none limit [])) =
      DirectGraph H lt (Precedes H histories strongSession) (Overlooks H) := by
  funext i j
  apply propext
  constructor
  · exact Hop.mono (fun a b => (depends_known_iff lt a b).mp)
      (fun a b => (antiDepends_known_iff lt a b).mp)
  · exact Hop.mono (fun a b => (depends_known_iff lt a b).mpr)
      (fun a b => (antiDepends_known_iff lt a b).mpr)

/-- Algorithm 4 accepts a simple history iff its versions can be ordered so that
the serialization graph has none of the cycles that snapshot isolation forbids. -/
theorem algo4_iff_adyaIsolated (o : SetOrder) (monosat : GraphSat.Oracle)
    (H : List (Entry (Mop κ Value)))
    (histories : List (List (Entry (Mop κ Value)))) (strongSession : Bool) (hH : SimpleHistory H)
    (hS : SessionsOf H histories) :
    ∃ b, algo4 o monosat H histories strongSession false = .ok b ∧
      (b = true ↔ ∃ lt, AdyaIsolated H histories strongSession lt) := by
  obtain ⟨t, hc, ht⟩ := AdyaSI.checked_of_simple histories strongSession o hH hS
  obtain ⟨b, hb, hiff⟩ := hc.verdict monosat
  have hin : ∀ e, KnownStep H histories strongSession t.initial Prod.snd (AdyaSI.finOf o H false t)
      (.ok (.edge e)) →
      e.dst < H.length :=
    fun e he => AdyaSIChain.known_dst_lt hc.tables
      (fun txns htx e' he' => ((hS txns htx).2 e' he').2) he
  rw [show AdyaSI.finOf o H false t = [] from rfl, ht] at hiff hin
  refine ⟨b, hb, hiff.trans ?_⟩
  rw [exists_explained_iff (fun i h0 hn => .first h0 hn) hin]
  constructor
  · intro h
    obtain ⟨hno, lt, hv, ha⟩ := h
    rw [directGraph_known] at ha
    exact ⟨lt, hv, ha, fun q m k hom p hp hu => hno _ (.ownUpsert hom hu hp)⟩
  · intro h
    obtain ⟨lt, h⟩ := h
    refine ⟨fun e he => ?_, lt, h.versions, ?_⟩
    · cases he with
      | dirtyRead _ _ hf _ => cases hf
      | ownUpsert hom hu hp => exact h.ownUpserts _ _ _ hom _ hp hu
      | final hx => cases hx
    · rw [directGraph_known]
      exact h.acyclic

theorem algo4_iff_adyaIsolated_small :
    SimpleHistory smallHistory ∧ SessionsOf smallHistory smallSessions ∧
    ∃ b, algo4 .stored .exact smallHistory smallSessions true false = .ok b ∧
      (b = true ↔ ∃ lt, AdyaIsolated smallHistory smallSessions true lt) :=
  ⟨simple_small, sessions_small,
    algo4_iff_adyaIsolated .stored .exact smallHistory smallSessions true simple_small
    sessions_small⟩

end Adya

end Viper
