import Viper.Algos
import Viper.AdyaSISpec

/-!
# Algorithm 4 decides snapshot isolation

On histories of reads, successful writes and two-sided range queries without an
initial transaction, the plain builder and checker accept exactly the histories
with an order of begin and commit events that snapshot isolation asks for.
-/
namespace Viper

open Py

section Histories

variable {κ : Type}

variable [LinearOrder κ]

/-- Histories without an initial transaction, of reads, successful writes and
two-sided range queries that `check_INT` accepts, with unique versions. -/
structure SimpleHistory (H : List (Entry (Mop κ Value))) : Prop where
  initial : ∃ e, H.head? = some e ∧ e.value = none
  complete : ∀ i, 0 < i → i < H.length → ∃ txn, TxnAt H i txn
  simple : ∀ i txn, TxnAt H i txn → ∀ mop ∈ txn, mop.Simple
  internal : ∀ i txn, TxnAt H i txn → checkINT txn = .ok true
  unique : UniqueWrites H

theorem SimpleHistory.wellFormed {H : List (Entry (Mop κ Value))} (h : SimpleHistory H) :
    WellFormed H where
  initial := by
    obtain ⟨e, he, hv⟩ := h.initial
    exact ⟨none, by simp [initialState, he, hv]⟩
  complete := h.complete
  admissible i txn ht := admissible_of_checkINT (h.internal i txn ht) (h.simple i txn ht)
  unique := h.unique
  apart :=
    apart_of_checkINT h.unique h.internal (fun i txn ht mop hm => (h.simple i txn ht mop hm).basic)

/-- Snapshot isolation, as an order of the begin and commit events. -/
structure SnapshotIsolated [LinearOrder Event] (H : List (Entry (Mop κ Value)))
    (histories : List (List (Entry (Mop κ Value)))) (strongSession : Bool) : Prop where
  begins : ∀ i, i < H.length → Event.s i < Event.c i
  first : ∀ i, 0 < i → i < H.length → Event.c 0 < Event.s i
  /-- a reader of a written version begins after its writer, the last writer to commit before -/
  reads : ∀ i j k v, Has extReadsFn H j k v → Has extWritesFn H i k v →
    Event.c i < Event.s j ∧ ∀ x v', Has extWritesFn H x k v' → Event.c x < Event.s j →
    Event.c x ≤ Event.c i
  /-- a reader of a version nobody wrote begins before every writer of the key commits -/
  initialReads : ∀ j k v, Has extReadsFn H j k v → (∀ i, ¬ Has extWritesFn H i k v) →
    ∀ x v', Has extWritesFn H x k v' → ¬ Event.c x < Event.s j
  /-- a query that does not return a key it covers comes before all writes of the key -/
  ranges : ∀ q m k, Omits H q m k →
    (∀ p, p ≤ m → ¬ UpsertAt H q p k) ∧ ∀ i p, UpsertAt H i p k → i ≠ q → ¬ Event.c i < Event.s q
  apart : ∀ i j k v v', Has extWritesFn H i k v → Has extWritesFn H j k v' → i ≠ j →
    Event.c i < Event.s j ∨ Event.c j < Event.s i
  sessions : strongSession = true → ∀ i j, Consecutive histories i j → Event.c i < Event.s j

/-- What the builder asks of an order: like snapshot isolation, but among the
versions nobody wrote only those of the initial state hold readers back. -/
structure Constrained [LinearOrder Event] (H : List (Entry (Mop κ Value)))
    (histories : List (List (Entry (Mop κ Value)))) (strongSession : Bool)
    (initial : Option (Dict κ Value)) : Prop where
  begins : ∀ i, i < H.length → Event.s i < Event.c i
  first : ∀ i, 0 < i → i < H.length → Event.c 0 < Event.s i
  reads : ∀ i j k v, Has extReadsFn H j k v → Has extWritesFn H i k v →
    Event.c i < Event.s j ∧ ∀ x v', Has extWritesFn H x k v' → Event.c x < Event.s j →
    Event.c x ≤ Event.c i
  initialReads : ∀ j k v, Has extReadsFn H j k v → (∀ i, ¬ Has extWritesFn H i k v) →
    fromInitial initial k v = true →
    ∀ x v', Has extWritesFn H x k v' → ¬ Event.c x < Event.s j
  ranges : ∀ q m k, Omits H q m k → ∀ i p, UpsertAt H i p k → i ≠ q → ¬ Event.c i < Event.s q
  apart : ∀ i j k v v', Has extWritesFn H i k v → Has extWritesFn H j k v' → i ≠ j →
    Event.c i < Event.s j ∨ Event.c j < Event.s i
  sessions : strongSession = true → ∀ i j, Consecutive histories i j → Event.c i < Event.s j

/-- Snapshot isolation is the case without an initial state, where in addition no
transaction omits a key that it has upserted. -/
theorem snapshotIsolated_iff_constrained [LinearOrder Event] {H : List (Entry (Mop κ Value))}
    {histories : List (List (Entry (Mop κ Value)))} {strongSession : Bool} :
    SnapshotIsolated H histories strongSession ↔
      (∀ q m k, Omits H q m k → ∀ p, p ≤ m → ¬ UpsertAt H q p k) ∧
      Constrained H histories strongSession none := by
  constructor
  · intro h
    exact ⟨fun q m k hom => (h.ranges q m k hom).1, h.begins, h.first, h.reads,
      fun j k v hr hno _ => h.initialReads j k v hr hno,
      fun q m k hom => (h.ranges q m k hom).2, h.apart, h.sessions⟩
  · intro h
    obtain ⟨hown, h⟩ := h
    exact ⟨h.begins, h.first, h.reads, fun j k v hr hno => h.initialReads j k v hr hno rfl,
      fun q m k hom => ⟨hown q m k hom, h.ranges q m k hom⟩, h.apart, h.sessions⟩

end Histories

namespace AdyaSI

variable {κ : Type} [LinearOrder κ] [ToString κ] {H : List (Entry (Mop κ Value))}
  {histories : List (List (Entry (Mop κ Value)))} {strongSession : Bool}

variable (histories strongSession) in
/-- Simple histories pass every assertion of the plain builder. -/
theorem checked_of_simple (o : SetOrder) (h : SimpleHistory H) (hS : SessionsOf H histories) :
    ∃ t, Checked o H histories strongSession false t ∧ t.initial = none := by
  obtain ⟨t, hc⟩ := checked_of_wellFormed strongSession false o h.wellFormed hS
    (fun t _ x hx => by cases hx)
  obtain ⟨e, he, hv⟩ := h.initial
  have hinit := hc.tables.initial
  simp only [initialState, he, hv] at hinit
  exact ⟨t, hc, (Except.ok.inj hinit).symm⟩

omit [ToString κ] in
theorem lt_of_not_commit_lt [LinearOrder Event] {i j : Nat} (h : ¬ Event.c i < Event.s j) :
    Event.s j < Event.c i :=
  lt_of_le_of_ne (not_lt.mp h) (by simp)

section Constraints

variable [LinearOrder Event] {initial : Option (Dict κ Value)}

omit [ToString κ] in
/-- Under the constraints, readers see the latest version of their snapshot. -/
theorem legal_of_constrained (h : Constrained H histories strongSession initial) :
    Versions.Legal (workload H) Event.s Event.c where
  apart := by
    rintro k i j ⟨v, hi⟩ ⟨v', hj⟩ hne
    exact h.apart i j k v v' hi hj hne
  reads := by
    rintro k i j ⟨v, hi, hj⟩
    exact (h.reads i j k v hj hi).1
  others := by
    rintro k i j x ⟨v, hi, hj⟩ ⟨v', hx⟩ hxi _
    by_cases hb : Event.c x < Event.s j
    · have hle := (h.reads i j k v hj hi).2 x v' hx hb
      have hsx := h.begins x hx.lt.2
      rcases h.apart x i k v' v hx hi hxi with h₁ | h₁
      · exact .inl h₁
      · exact absurd hle (not_le.mpr (h₁.trans hsx))
    · exact .inr (lt_of_not_commit_lt hb)

theorem explained_of_constrained (h : Constrained H histories strongSession initial) :
    Explained H (KnownStep H histories strongSession initial Prod.snd []) where
  begins := h.begins
  first := h.first
  known e he := by
    cases he with
    | session hs hc => exact h.sessions hs _ _ hc
    | first hi hn => exact h.first _ hi hn
    | read hw hr => exact (h.reads _ _ _ _ hr hw).1
    | initialRead hr _ _ => exact h.first _ hr.lt.1 hr.lt.2
    | initialOther hr hno hf hw _ =>
      exact lt_of_not_commit_lt (h.initialReads _ _ _ hr hno hf _ _ hw)
    | final hx => cases hx
    | omitted hom hu hne => exact lt_of_not_commit_lt (h.ranges _ _ _ hom _ _ hu hne)
  legal := legal_of_constrained h

section Explanation

variable (h : Explained H (KnownStep H histories strongSession initial Prod.snd []))
include h

/-- A writer of the key that commits before the reader begins commits no later than
the writer of the version read. -/
theorem le_of_explained {i j x : Nat} {k : κ} {v v' : Value} (hr : Has extReadsFn H j k v)
    (hw : Has extWritesFn H i k v) (hx : Has extWritesFn H x k v') (hb : Event.c x < Event.s j) :
    Event.c x ≤ Event.c i := by
  by_cases hxi : x = i
  · rw [hxi]
  by_cases hxj : x = j
  · subst hxj
    exact absurd hb (not_lt.mpr (le_of_lt (h.begins x hx.lt.2)))
  · rcases h.legal.others ⟨v, hw, hr⟩ ⟨v', hx⟩ hxi hxj with h₁ | h₁
    · exact le_of_lt (h₁.trans (h.begins i hw.lt.2))
    · exact absurd hb (not_lt.mpr (le_of_lt h₁))

theorem initialReads_of_explained {j x : Nat} {k : κ} {v v' : Value} (hr : Has extReadsFn H j k v)
    (hno : ∀ i, ¬ Has extWritesFn H i k v) (hf : fromInitial initial k v = true)
    (hx : Has extWritesFn H x k v') : ¬ Event.c x < Event.s j := by
  by_cases hxj : x = j
  · subst hxj
    exact not_lt.mpr (le_of_lt (h.begins x hx.lt.2))
  · exact not_lt.mpr (le_of_lt (h.known _ (.initialOther hr hno hf hx hxj)))

theorem constrained_of_explained : Constrained H histories strongSession initial where
  begins := h.begins
  first := h.first
  reads _ _ _ _ hr hw :=
    ⟨h.known _ (.read hw hr), fun _ _ hx hb => le_of_explained h hr hw hx hb⟩
  initialReads _ _ _ hr hno hf _ _ hx := initialReads_of_explained h hr hno hf hx
  ranges _ _ _ hom _ _ hu hne := not_lt.mpr (le_of_lt (h.known _ (.omitted hom hu hne)))
  apart _ _ _ v v' hi hj hne := h.legal.apart ⟨v, hi⟩ ⟨v', hj⟩ hne
  sessions hs _ _ hc := h.known _ (.session hs hc)

end Explanation

/-- The constraints are what the known edges and a legal workload say together. -/
theorem constrained_iff (initial : Option (Dict κ Value)) :
    Constrained H histories strongSession initial ↔
      Explained H (KnownStep H histories strongSession initial Prod.snd []) :=
  ⟨explained_of_constrained, constrained_of_explained⟩

end Constraints

/-- Snapshot isolation is what the known edges and a legal workload say together. -/
theorem snapshotIsolated_iff [LinearOrder Event] :
    SnapshotIsolated H histories strongSession ↔
      (∀ e, ¬ KnownStep H histories strongSession none Prod.snd [] (.error e)) ∧
        Explained H (KnownStep H histories strongSession none Prod.snd []) := by
  rw [snapshotIsolated_iff_constrained, constrained_iff]
  refine and_congr_left fun _ => ?_
  constructor
  · intro hown e he
    cases he with
    | dirtyRead _ _ hf _ => cases hf
    | final hx => cases hx
    | ownUpsert hom hu hp => exact hown _ _ _ hom _ hp hu
  · intro hno q m k hom p hp hu
    exact hno _ (.ownUpsert hom hu hp)

end AdyaSI

section Main

variable {κ : Type} [LinearOrder κ] [ToString κ]

/-- Algorithm 4 returns a verdict on every simple history, and accepts exactly
those that snapshot isolation allows. -/
theorem algo4_iff_snapshotIsolated (o : SetOrder) (monosat : GraphSat.Oracle)
    (H : List (Entry (Mop κ Value)))
    (histories : List (List (Entry (Mop κ Value)))) (strongSession : Bool) (hH : SimpleHistory H)
    (hS : SessionsOf H histories) :
    ∃ b, algo4 o monosat H histories strongSession false = .ok b ∧
      (b = true ↔ ∃ _ : LinearOrder Event, SnapshotIsolated H histories strongSession) := by
  obtain ⟨t, hc, ht⟩ := AdyaSI.checked_of_simple histories strongSession o hH hS
  have hfin : AdyaSI.finOf o H false t = [] := rfl
  obtain ⟨b, hb, hiff⟩ := hc.verdict monosat
  rw [ht, hfin] at hiff
  refine ⟨b, hb, hiff.trans ?_⟩
  rw [← exists_and_left]
  exact exists_congr fun _ => AdyaSI.snapshotIsolated_iff.symm

/-- Two writers of a key, and a reader that also scans it. -/
def smallHistory : List (Entry (Mop Nat Value)) :=
  [⟨0, none⟩, ⟨1, some [.w 1 (.int 1) true]⟩, ⟨2, some [.w 1 (.int 2) true]⟩,
    ⟨3, some [.r 1 (.int 1) false, .range (some 0) (some 9) [⟨1, .int 1⟩] [] none]⟩]

def smallSessions : List (List (Entry (Mop Nat Value))) := [smallHistory.tail]

theorem simple_small : SimpleHistory smallHistory where
  initial := ⟨⟨0, none⟩, rfl, rfl⟩
  complete i hi hn := by
    match i, hi, hn with
    | 1, _, _ | 2, _, _ | 3, _, _ => exact ⟨_, by decide, _, rfl, rfl⟩
    | i + 4, _, hn => exact absurd hn (by simp [smallHistory])
  simple := forall_txnAt.mpr (by decide)
  internal := forall_txnAt.mpr (by decide)
  unique := uniqueWrites_iff.mpr (by decide)

theorem sessions_small : SessionsOf smallHistory smallSessions := by
  unfold SessionsOf
  decide

theorem algo4_iff_snapshotIsolated_small :
    SimpleHistory smallHistory ∧ SessionsOf smallHistory smallSessions ∧
    ∃ b, algo4 .stored .exact smallHistory smallSessions true false = .ok b ∧
      (b = true ↔ ∃ _ : LinearOrder Event, SnapshotIsolated smallHistory smallSessions true) :=
  ⟨simple_small, sessions_small,
    algo4_iff_snapshotIsolated .stored .exact smallHistory smallSessions true
    simple_small sessions_small⟩

/-- The plain builder returns a graph for it. -/
theorem small_built :
    ∃ G, AdyaSI.constructGraphFromLog .stored smallHistory smallSessions true false = .ok G := by
  have h :
      (AdyaSI.constructGraphFromLog .stored smallHistory smallSessions true false).toOption.isSome =
        true := by
    decide
  cases hG : AdyaSI.constructGraphFromLog .stored smallHistory smallSessions true false with
  | ok G => exact ⟨G, rfl⟩
  | error e =>
    rw [hG] at h
    cases h

end Main

end Viper
