import Viper.Anomalies
import Viper.Assertions

/-!
# Algorithms 4 and 6 on register histories

Both algorithms answer on every `LoggedHistory`, with or without an initial
transaction. They accept a history if its reads have a source, no query leaves
out an earlier upsert of its own transaction, and some order of the begin and
commit points agrees with what was read. They differ in what "earlier" means.
-/
namespace Viper

open Py Precedence

section Entrances

variable {κ : Type}

/-- Pruning does not show in the verdict, nor in an exception of the builder. -/
theorem mainAlgo6812_eq_mainAlgo35 {κ : Type} (o : SetOrder) (monosat : GraphSat.Oracle)
    (build : Except Err (ArgumentedPolyGraph κ × List Constraint))
    (h : ∀ g con, build = .ok (g, con) → Prunable g con) :
    ∃ enough, ∀ fuel, enough ≤ fuel →
      mainAlgo6812 fuel o build (verdictOf o monosat) =
      some (mainAlgo35 build (verdictOf o monosat)) := by
  cases build with
  | error e => exact ⟨0, fun _ _ => rfl⟩
  | ok p =>
    obtain ⟨g, con⟩ := p
    refine ⟨2 * g.nNodes + 11, ?_⟩
    intro fuel hf
    exact (h g con rfl).mainAlgo6812_eq monosat (by omega)

theorem mainAlgo35_eq_true {κ : Type} {build : Except Err (ArgumentedPolyGraph κ × List Constraint)}
    {check : ArgumentedPolyGraph κ → List Constraint → Bool} :
    mainAlgo35 build check = .ok true ↔ ∃ g con, build = .ok (g, con) ∧ check g con = true := by
  cases build with
  | ok p =>
    obtain ⟨g, con⟩ := p
    cases hc : check g con <;> simp [mainAlgo35, catchReject, hc]
  | error e => cases e <;> simp [mainAlgo35, catchReject]

end Entrances

section Accounts

variable {κ : Type} [LinearOrder κ]

/-- What a history has to satisfy. A query of transaction `q` at position `m` has
to return what `q` has upserted up to position `limit (q, m)`. -/
structure Accounted (H : List (Entry (Mop κ Value))) (histories : List (List (Entry (Mop κ Value))))
    (strongSession : Bool) (initial : Option (Dict κ Value)) (limit : Nat × Nat → Nat) : Prop where
  sources : ∀ j k v, Has extReadsFn H j k v → (∀ i, ¬ Has extWritesFn H i k v) →
    fromInitial initial k v = true ∨ isNull v = true
  ownUpserts : ∀ q m k, Omits H q m k → ∀ p, p ≤ limit (q, m) → ¬ UpsertAt H q p k
  ordered : ∃ _ : LinearOrder Event, Constrained H histories strongSession initial

variable [ToString κ] {H : List (Entry (Mop κ Value))}
  {histories : List (List (Entry (Mop κ Value)))}
  {strongSession : Bool} {initial : Option (Dict κ Value)} {limit : Nat × Nat → Nat}

theorem accounted_iff : Accounted H histories strongSession initial limit ↔
    (∀ e, ¬ KnownStep H histories strongSession initial limit [] (.error e)) ∧
      ∃ _ : LinearOrder Event, Explained H
        (KnownStep H histories strongSession initial limit []) := by
  have hordered : (∃ _ : LinearOrder Event, Constrained H histories strongSession initial) ↔
      ∃ _ : LinearOrder Event, Explained H
        (KnownStep H histories strongSession initial limit []) := by
    apply exists_congr
    intro hlin
    rw [AdyaSI.constrained_iff]
    constructor
    · intro h
      exact ⟨h.begins, h.first, fun e he => h.known e he.ok_limit, h.legal⟩
    · intro h
      exact ⟨h.begins, h.first, fun e he => h.known e he.ok_limit, h.legal⟩
  constructor
  · intro h
    refine ⟨?_, hordered.mp h.ordered⟩
    intro e he
    cases he with
    | dirtyRead hr hno hf hnull =>
      cases h.sources _ _ _ hr hno with
      | inl hs => exact absurd hs (by rw [hf]; exact Bool.false_ne_true)
      | inr hs => exact absurd hs (by rw [hnull]; exact Bool.false_ne_true)
    | final hx => cases hx
    | ownUpsert hom hu hp => exact h.ownUpserts _ _ _ hom _ hp hu
  · intro h
    obtain ⟨hno, hex⟩ := h
    refine ⟨?_, ?_, hordered.mpr hex⟩
    · intro j k v hr hnw
      by_contra hs
      rw [not_or, Bool.not_eq_true, Bool.not_eq_true] at hs
      exact hno _ (.dirtyRead hr hnw hs.1 hs.2)
    · intro q m k hom p hp hu
      exact hno _ (.ownUpsert hom hu hp)

end Accounts

section Logged

variable {κ : Type} [LinearOrder κ] {H : List (Entry (Mop κ Value))}
  {histories : List (List (Entry (Mop κ Value)))}

/-- `check_INT` has nothing against a transaction of writes. -/
theorem checkINT_writes {txn : List (Mop κ Value)} (h : ∀ mop ∈ txn, ∃ k v, mop = .w k v true) :
    checkINT txn = .ok true := by
  obtain ⟨lastRw, hrun, _⟩ :=
    foldlM_total (f := intStep (intWrites txn)) (fun _ => True) (l := txn.zipIdx)
    (fun lastRw p hp _ => by
      obtain ⟨k, v, hm⟩ := h p.1 (List.fst_mem_of_mem_zipIdx hp)
      exact ⟨lastRw.set k v, by simp [intStep, hm], trivial⟩) (s := Dict.empty) trivial
  rw [checkINT, hrun]
  rfl

theorem LoggedHistory.parsed (h : LoggedHistory H) : AdyaSIChain.Parsed H := by
  obtain ⟨e, he, hw⟩ := h.initial
  right
  intro e' he' txn hv
  obtain ⟨i, hi⟩ := List.getElem?_of_mem he'
  cases i with
  | zero =>
    rw [← List.head?_eq_getElem?, he] at hi
    cases hi
    exact checkINT_writes (hw txn hv)
  | succ i => exact h.internal (i + 1) txn ⟨Nat.succ_pos i, e', hi, hv⟩

variable [ToString κ]

/-- Parsed histories pass the assertions of both builders. -/
theorem LoggedHistory.checked (h : LoggedHistory H) (hS : SessionsOf H histories)
    (strongSession : Bool) (o : SetOrder) :
    ∃ t, AdyaSIChain.Checked o H histories strongSession false t := by
  obtain ⟨t, hc⟩ :=
    AdyaSI.checked_of_wellFormed strongSession false o h.wellFormed hS (fun t _ x hx => by cases hx)
  refine ⟨t, hc, writes_total h.wellFormed.loaded h.unique, ?_⟩
  intro q m k1 k2 rs dead hr
  obtain ⟨txn, fin, ht, hj⟩ := hr
  exact (h.logged q txn ht _ (List.mem_of_getElem? hj)).2.2

/-- Algorithm 4 answers on every logged history, and accepts those it can account for. -/
theorem algo4_iff_accounted (o : SetOrder) (monosat : GraphSat.Oracle)
    (H : List (Entry (Mop κ Value)))
    (histories : List (List (Entry (Mop κ Value)))) (strongSession : Bool)
    (initial : Option (Dict κ Value))
    (hH : LoggedHistory H) (hS : SessionsOf H histories) (hi : initialState H = .ok initial) :
    ∃ b, algo4 o monosat H histories strongSession false = .ok b ∧
      (b = true ↔ Accounted H histories strongSession initial Prod.snd) := by
  obtain ⟨t, hc⟩ := hH.checked hS strongSession o
  obtain rfl : t.initial = initial := Except.ok.inj (hc.plain.tables.initial.symm.trans hi)
  obtain ⟨b, hb, hiff⟩ := hc.plain.verdict monosat
  exact ⟨b, hb, hiff.trans accounted_iff.symm⟩

theorem algo4_iff_accounted_logged :
    LoggedHistory loggedHistory ∧ SessionsOf loggedHistory loggedSessions ∧
    initialState loggedHistory = .ok (some (Dict.empty.set 1 (.int 7))) ∧
    ∃ b, algo4 .stored .exact loggedHistory loggedSessions true false = .ok b ∧
      (b = true ↔
        Accounted loggedHistory loggedSessions true (some (Dict.empty.set 1 (.int 7))) Prod.snd) :=
  ⟨logged_loggedHistory, sessions_loggedSessions, rfl,
    algo4_iff_accounted .stored .exact loggedHistory loggedSessions true
    _ logged_loggedHistory sessions_loggedSessions rfl⟩

/-- Algorithm 6 on a parsed history. -/
def algo6 (fuel : Nat) (o : SetOrder) (monosat : GraphSat.Oracle)
    (fullHistory : List (Entry (Mop κ Value)))
    (histories : List (List (Entry (Mop κ Value))))
    (strongSession hasFinal : Bool) : Option (Except Err Bool) :=
  mainAlgo6812 fuel o (AdyaSIChain.constructEncoding o fullHistory histories strongSession hasFinal)
    (verdictOf o monosat)

/-- Pruning leaves nothing of algorithm 5 unanswered. -/
theorem algo6_eq_algo5 (o : SetOrder) (monosat : GraphSat.Oracle) (strongSession hasFinal : Bool)
    (hP : AdyaSIChain.Parsed H) (hids : ∀ txns ∈ histories, ∀ e ∈ txns, e.id < H.length) :
    ∃ enough, ∀ fuel, enough ≤ fuel → algo6 fuel o monosat H histories strongSession hasFinal =
      some (algo5 o monosat H histories strongSession hasFinal) := by
  apply mainAlgo6812_eq_mainAlgo35
  intro g con hok
  exact (EncodingOf.chain hP hids hok).prunable

/-- So does algorithm 6. It takes the number of the transaction for the position of the query. -/
theorem algo6_iff_accounted (o : SetOrder) (monosat : GraphSat.Oracle)
    (H : List (Entry (Mop κ Value)))
    (histories : List (List (Entry (Mop κ Value)))) (strongSession : Bool)
    (initial : Option (Dict κ Value))
    (hH : LoggedHistory H) (hS : SessionsOf H histories) (hi : initialState H = .ok initial) :
    ∃ enough, ∀ fuel, enough ≤ fuel →
      ∃ b, algo6 fuel o monosat H histories strongSession false = some (.ok b) ∧
      (b = true ↔ Accounted H histories strongSession initial Prod.fst) := by
  obtain ⟨t, hc⟩ := hH.checked hS strongSession o
  obtain rfl : t.initial = initial := Except.ok.inj (hc.plain.tables.initial.symm.trans hi)
  obtain ⟨enough, hsame⟩ := algo6_eq_algo5 o monosat strongSession false hH.parsed
    (fun txns ht e he => ((hS txns ht).2 e he).2)
  obtain ⟨b, hb, hiff⟩ := hc.verdict monosat
  refine ⟨enough, fun fuel hf => ⟨b, ?_, hiff.trans accounted_iff.symm⟩⟩
  rw [hsame fuel hf, hb]

theorem algo6_iff_accounted_logged :
    LoggedHistory loggedHistory ∧ SessionsOf loggedHistory loggedSessions ∧
    initialState loggedHistory = .ok (some (Dict.empty.set 1 (.int 7))) ∧
    ∃ enough, ∀ fuel, enough ≤ fuel →
      ∃ b, algo6 fuel .stored .exact loggedHistory loggedSessions true false = some (.ok b) ∧
        (b = true ↔ Accounted loggedHistory loggedSessions true
          (some (Dict.empty.set 1 (.int 7))) Prod.fst) :=
  ⟨logged_loggedHistory, sessions_loggedSessions, rfl,
    algo6_iff_accounted .stored .exact loggedHistory loggedSessions true
    _ logged_loggedHistory sessions_loggedSessions rfl⟩

end Logged

end Viper
