import Viper.AdyaSIChainSpec

/-!
# Range queries against the writers of an omitted key

A query that covers a key without returning it has to come before every write of
it. The builders order it before the transactions that have a `w` of the key,
successful or not; inserts and deletes are in the key set but not in the index
of upserts.
-/
namespace Viper

open Py

variable {κ : Type}

/-- A micro-operation that writes `k` externally. -/
def Mop.Sets {ν : Type} (k : κ) : Mop κ ν → Prop
  | .w k' _ succ => k' = k ∧ succ = true
  | .i k' _ _ _ succ => k' = k ∧ succ = true
  | .d k' _ _ _ _ => k' = k
  | .append k' _ => k' = k
  | _ => False

/-- Transaction `T` writes, inserts or deletes `k` successfully. -/
def Sets {ν : Type} (H : List (Entry (Mop κ ν))) (T : Nat) (k : κ) : Prop :=
  ∃ txn, TxnAt H T txn ∧ ∃ mop ∈ txn, mop.Sets k

variable [LinearOrder κ]

theorem extWritesStep_key {ν : Type} {m m' : Dict κ ν} {mop : Mop κ ν}
    (h : extWritesStep m mop = .ok m') (k : κ) :
    (∃ v, m'.get? k = some v) ↔ (∃ v, m.get? k = some v) ∨ mop.Sets k := by
  have hset : ∀ (k₀ : κ) (v₀ : ν), (∃ v, (m.set k₀ v₀).get? k = some v) ↔
      (∃ v, m.get? k = some v) ∨ k₀ = k := by
    intro k₀ v₀
    rw [Dict.get?_set]
    by_cases hk : k = k₀
    · simp [hk]
    · simp [hk, Ne.symm hk]
  cases mop with
  | w k₀ v₀ succ | i k₀ v₀ readV dead succ =>
    cases h
    cases succ with
    | false => simp [Mop.Sets]
    | true => simpa [Mop.Sets] using hset k₀ v₀
  | d k₀ v₀ readV dead succ =>
    rw [extWritesStep, bind_eq_ok] at h
    obtain ⟨_, _, he⟩ := h
    cases he
    exact hset k₀ v₀
  | append k₀ v₀ =>
    cases h
    exact hset k₀ v₀
  | r | range =>
    cases h
    simp [Mop.Sets]

theorem extWritesFn_key {ν : Type} {txn : List (Mop κ ν)} {m : Dict κ ν}
    (h : extWritesFn txn = .ok m) (k : κ) :
    (∃ v, m.get? k = some v) ↔ ∃ mop ∈ txn, mop.Sets k := by
  have hrun : ∀ (txn : List (Mop κ ν)) (m₀ : Dict κ ν), txn.foldlM extWritesStep m₀ = .ok m →
      ((∃ v, m.get? k = some v) ↔ (∃ v, m₀.get? k = some v) ∨ ∃ mop ∈ txn, mop.Sets k) := by
    intro txn
    induction txn with
    | nil =>
      intro m₀ h
      cases h
      simp
    | cons mop txn ih =>
      intro m₀ h
      rw [List.foldlM_cons, bind_eq_ok] at h
      obtain ⟨m₁, h₁, h₂⟩ := h
      rw [ih m₁ h₂, extWritesStep_key h₁]
      simp [or_assoc]
  simpa using hrun txn Dict.empty h

/-- The external writers of a key are the transactions that set it. -/
theorem mem_kWritesFn_iff {H : List (Entry (Mop κ Value))} {X : Index κ Value}
    (hX : extIndex H extWritesFn = .ok X) (k : κ) (T : Nat) : T ∈ kWritesFn X k ↔ Sets H T k := by
  rw [mem_kWritesFn (extIndex_spec hX)]
  constructor
  · intro h
    obtain ⟨v, txn, m, ht, hm, hk⟩ := h
    exact ⟨txn, ht, (extWritesFn_key hm k).mp ⟨v, hk⟩⟩
  · intro h
    obtain ⟨txn, ht, hs⟩ := h
    obtain ⟨m, hm⟩ := extIndex_each hX ht
    obtain ⟨v, hv⟩ := (extWritesFn_key hm k).mpr hs
    exact ⟨v, txn, m, ht, hm, hv⟩

/-- What a builder does with one query on account of the key `k`. -/
def onAccountOf (add : ArgumentedPolyGraph κ → κ → Except Err (ArgumentedPolyGraph κ)) (K : List κ)
    (k1 k2 : Option κ)
    (rs dead : List (Record κ Value)) (G : ArgumentedPolyGraph κ)
    (k : κ) : Except Err (ArgumentedPolyGraph κ) :=
  if (otherKeys K k1 k2 rs dead).contains k then add G k else .ok G

section OneQuery

variable {H : List (Entry (Mop κ Value))} {k1 k2 : Option κ}
  {rs dead : List (Record κ Value)} {k : κ}
  (hin : inBetween k k1 k2 = true) (hrs : k ∉ rs.map Record.id) (hdead : k ∉ dead.map Record.id)

include hin hrs hdead in
/-- The `rw` edges from the query to other transactions that `k` is responsible for. -/
theorem before_onAccountOf {U : Positions κ Value}
    (hU : allIndex H allUpsertFn = .ok U) {K : List κ}
    (hK : allKeys H = .ok K) (o : SetOrder) {q limit : Nat} {G G' : ArgumentedPolyGraph κ}
    (h : onAccountOf (addOmittedKey o U q limit) K k1 k2 rs dead G k = .ok G') {T : Nat}
    (hT : T ≠ q) :
    G'.Before (.s q) (.c T) ↔ G.Before (.s q) (.c T) ∨ ∃ p, UpsertAt H T p k := by
  rw [onAccountOf] at h
  split at h
  · rw [addOmittedKey_eq] at h
    rw [(play_played h).before]
    refine or_congr_right ?_
    constructor
    · intro hb
      obtain ⟨e, he, hb⟩ := hb
      rcases (mem_omittedScript hU o q limit k _).mp he with ⟨_, he⟩ | ⟨i, _, hu, he⟩
      · cases he
      · cases he
        cases hb
        exact hu
    · intro hu
      exact ⟨⟨q, T, .rw⟩, (mem_omittedScript hU o q limit k _).mpr (.inr ⟨T, hT, hu, rfl⟩), rfl⟩
  · rename_i hk
    cases h
    -- a key without any write, insert or delete has no upsert either
    have hno : ¬ ∃ p, UpsertAt H T p k := by
      rintro ⟨p, txn, v, succ, ht, hj⟩
      have hmem : k ∈ K :=
        (mem_allKeys hK k).mpr
          ⟨T, txn, ht, List.mem_filterMap.mpr ⟨_, List.mem_of_getElem? hj, rfl⟩⟩
      exact hk
        (List.contains_iff_mem.mpr ((mem_otherKeys K k1 k2 rs dead k).mpr ⟨hmem, hin, hrs, hdead⟩))
    exact (or_iff_left hno).symm

end OneQuery

/-- In either builder, the transactions a query is ordered before on account of an
omitted key are its writers exactly when, among the other transactions, those
with a `w` of the key are those that set it. -/
theorem omitted_writers_iff (o : SetOrder) (H : List (Entry (Mop κ Value))) (U : Positions κ Value)
    (X : Index κ Value) (K : List κ) (hU : allIndex H allUpsertFn = .ok U)
    (hX : extIndex H extWritesFn = .ok X)
    (hK : allKeys H = .ok K) (q m : Nat) (k1 k2 : Option κ) (rs dead : List (Record κ Value))
    (_ : RangeAt H q m k1 k2 rs dead) (k : κ) (hin : inBetween k k1 k2 = true)
    (hrs : k ∉ rs.map Record.id)
    (hdead : k ∉ dead.map Record.id) (G G' : ArgumentedPolyGraph κ)
    (hG : ∀ T, ¬ G.Before (.s q) (.c T))
    (h : onAccountOf (AdyaSI.addOmitted o U (q, m)) K k1 k2 rs dead G k = .ok G' ∨
      onAccountOf (AdyaSIChain.addOmitted o U (q, m)) K k1 k2 rs dead G k = .ok G') :
    (∀ T, T ≠ q → (G'.Before (.s q) (.c T) ↔ T ∈ kWritesFn X k)) ↔
      ∀ T, T ≠ q → ((∃ p, UpsertAt H T p k) ↔ Sets H T k) := by
  refine forall_congr' fun T => forall_congr' fun hT => ?_
  have hbefore : G'.Before (.s q) (.c T) ↔ ∃ p, UpsertAt H T p k := by
    rcases h with h | h
    · rw [before_onAccountOf hin hrs hdead hU hK o h hT]
      exact or_iff_right (hG T)
    · rw [before_onAccountOf hin hrs hdead hU hK o h hT]
      exact or_iff_right (hG T)
  rw [hbefore, mem_kWritesFn_iff hX]

omit [LinearOrder κ] in
theorem not_before_init (n : Nat) (a b : Event) :
    ¬ (ArgumentedPolyGraph.init n : ArgumentedPolyGraph κ).Before a b := by
  rintro ⟨src, dst, type, h, _⟩
  cases h

/-- Transaction 1 scans an empty range, transaction 2 writes a key of it. -/
def scanBesideWrite : List (Entry (Mop Nat Value)) :=
  [⟨0, none⟩, ⟨1, some [.range (some 0) (some 9) [] [] none]⟩, ⟨2, some [.w 5 (.int 1) true]⟩]

theorem omitted_writers_iff_scan : ∃ U X K G', allIndex scanBesideWrite allUpsertFn = .ok U ∧
    extIndex scanBesideWrite extWritesFn = .ok X ∧ allKeys scanBesideWrite = .ok K ∧
    RangeAt scanBesideWrite 1 0 (some 0) (some 9) [] [] ∧
    onAccountOf (AdyaSI.addOmitted .stored U (1, 0)) K (some 0) (some 9) [] []
      (.init 3) 5 = .ok G' ∧
    ((∀ T, T ≠ 1 → (G'.Before (.s 1) (.c T) ↔ T ∈ kWritesFn X 5)) ↔
      ∀ T, T ≠ 1 → ((∃ p, UpsertAt scanBesideWrite T p 5) ↔ Sets scanBesideWrite T 5)) := by
  have hr : RangeAt scanBesideWrite 1 0 (some 0) (some 9) [] [] :=
    ⟨_, none, ⟨by decide, _, rfl, rfl⟩, rfl⟩
  exact ⟨_, _, _, _, rfl, rfl, rfl, hr, rfl,
    omitted_writers_iff .stored scanBesideWrite _ _ _ rfl rfl rfl 1 0 (some 0)
    (some 9) [] [] hr 5 (by decide) (by simp) (by simp) (.init 3) _
      (fun T => not_before_init 3 _ _) (.inl rfl)⟩

/-- Transaction 1 scans an empty range, transaction 2 inserts a key of it. -/
def scanBesideInsert : List (Entry (Mop Nat Value)) :=
  [⟨0, none⟩, ⟨1, some [.range (some 0) (some 9) [] [] none]⟩,
    ⟨2, some [.i 5 (.int 1) (.int 0) false true]⟩]

/-- The query is not ordered before the insert it does not see. -/
theorem scanBesideInsert_unordered : ∃ U X K G', allIndex scanBesideInsert allUpsertFn = .ok U ∧
    extIndex scanBesideInsert extWritesFn = .ok X ∧ allKeys scanBesideInsert = .ok K ∧
    RangeAt scanBesideInsert 1 0 (some 0) (some 9) [] [] ∧
    onAccountOf (AdyaSI.addOmitted .stored U (1, 0)) K (some 0) (some 9) [] []
      (.init 3) 5 = .ok G' ∧
    onAccountOf (AdyaSIChain.addOmitted .stored U (1, 0)) K (some 0) (some 9) [] []
      (.init 3) 5 = .ok G' ∧
    ¬ ∀ T, T ≠ 1 → (G'.Before (.s 1) (.c T) ↔ T ∈ kWritesFn X 5) := by
  have hr : RangeAt scanBesideInsert 1 0 (some 0) (some 9) [] [] :=
    ⟨_, none, ⟨by decide, _, rfl, rfl⟩, rfl⟩
  refine ⟨_, _, _, .init 3, rfl, rfl, rfl, hr, rfl, rfl, fun h => ?_⟩
  exact not_before_init 3 _ _ ((h 2 (by decide)).mpr (by decide))

end Viper
