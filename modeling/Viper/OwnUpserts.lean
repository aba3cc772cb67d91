import Viper.AdyaSIChainSpec

/-!
# Range queries inside their own writing transaction

A query that omits a key has to come before every upsert of it. Inside its own
transaction the plain builder compares positions; the chain builder compares the
number of the transaction with the position of the upsert, so its decision
changes with the order in which the session logs are read.
-/
namespace Viper

open Py

section Placed

variable {κ : Type}

/-- A transaction has a `w` on `k` at position `p`, successful or not. -/
def WritesKey (txn : List (Mop κ Value)) (p : Nat) (k : κ) : Prop :=
  ∃ v succ, txn[p]? = some (.w k v succ)

theorem upsertAt_iff {H : List (Entry (Mop κ Value))} {T p : Nat} {k : κ}
    {txn : List (Mop κ Value)} (ht : TxnAt H T txn) : UpsertAt H T p k ↔ WritesKey txn p k := by
  constructor
  · rintro ⟨txn', v, succ, ht', hj⟩
    obtain rfl := ht.unique ht'
    exact ⟨v, succ, hj⟩
  · rintro ⟨v, succ, hj⟩
    exact ⟨txn, v, succ, ht, hj⟩

/-- A history with `n` empty transactions before the last one. -/
def historyWith (n : Nat) (txn : List (Mop κ Value)) : List (Entry (Mop κ Value)) :=
  ⟨0, none⟩ :: ((List.range' 1 n).map (fun i => ⟨i, some []⟩) ++ [⟨n + 1, some txn⟩])

theorem txnAt_last (n : Nat) (txn : List (Mop κ Value)) :
    TxnAt (historyWith n txn) (n + 1) txn := by
  refine ⟨Nat.succ_pos n, ⟨n + 1, some txn⟩, ?_, rfl⟩
  rw [historyWith, List.getElem?_cons_succ, List.getElem?_append_right (by simp)]
  simp

theorem txnAt_historyWith {n i : Nat} {txn txn' : List (Mop κ Value)}
    (h : TxnAt (historyWith n txn) i txn') : txn' = [] ∨ i = n + 1 ∧ txn' = txn := by
  obtain ⟨hi, e, he, hv⟩ := h
  obtain ⟨i, rfl⟩ := Nat.exists_eq_add_one.mpr hi
  rw [historyWith, List.getElem?_cons_succ] at he
  rcases Nat.lt_or_ge i n with hin | hin
  · rw [List.getElem?_append_left (by simpa using hin)] at he
    have hidle := List.mem_of_getElem? he
    rw [List.mem_map] at hidle
    obtain ⟨_, _, rfl⟩ := hidle
    exact .inl (Option.some.inj hv).symm
  · rw [List.getElem?_append_right (by simpa using hin), List.getElem?_singleton] at he
    split at he
    · rename_i hlast
      rw [List.length_map, List.length_range'] at hlast
      cases he
      exact .inr ⟨by omega, (Option.some.inj hv).symm⟩
    · cases he

theorem loaded_historyWith (n : Nat) (txn : List (Mop κ Value)) : Loaded (historyWith n txn) := by
  refine ⟨List.cons_ne_nil _ _, fun e he => ?_⟩
  rw [historyWith, List.tail_cons, List.dropLast_concat, List.mem_map] at he
  obtain ⟨_, _, rfl⟩ := he
  rfl

end Placed

variable {κ : Type} [LinearOrder κ]

/-- The loop over the upserts of an omitted key rejects exactly own upserts up to
the limit. -/
theorem addOmittedKey_rejects_iff {H : List (Entry (Mop κ Value))} {allUpserts : Positions κ Value}
    (hU : allIndex H allUpsertFn = .ok allUpserts) (o : SetOrder) {G : ArgumentedPolyGraph κ}
    (hG : G.nNodes = H.length) {T limit : Nat} {k : κ} (hT : T < H.length) :
    (∃ msg, addOmittedKey o allUpserts T limit G k = .error (.reject msg)) ↔
      ∃ p, p ≤ limit ∧ UpsertAt H T p k := by
  have hmem := mem_omittedScript hU o T limit k
  rw [addOmittedKey_eq]
  constructor
  · rintro ⟨msg, h⟩
    rcases (hmem _).mp (play_reject h) with ⟨⟨p, hu, hp⟩, _⟩ | ⟨_, _, _, he⟩
    · exact ⟨p, hp, hu⟩
    · cases he
  · rintro ⟨p, hp, hu⟩
    have hvalid : ∀ c, .ok c ∈ omittedScript o allUpserts T limit k → c.Valid G.nNodes := by
      intro c hc
      rcases (hmem _).mp hc with ⟨_, he⟩ | ⟨i, hi, ⟨p, txn, _, _, ht, _⟩, he⟩
      · cases he
      · cases he
        exact ⟨Ne.symm hi, Nat.pos_iff_ne_zero.mp ht.1, hG ▸ hT⟩
    obtain ⟨e, hplay, he⟩ := play_raises hvalid ((hmem _).mpr (.inl ⟨⟨p, hu, hp⟩, rfl⟩))
    rcases (hmem _).mp he with ⟨_, he⟩ | ⟨_, _, _, he⟩
    · cases he
      exact ⟨"", hplay⟩
    · cases he

/-- The range query at position `m` of a transaction covers `k` and does not return it. -/
def OmitsIn (txn : List (Mop κ Value)) (m : Nat) (k : κ) : Prop :=
  ∃ k1 k2 rs dead final, txn[m]? = some (.range k1 k2 rs dead final) ∧ inBetween k k1 k2 = true ∧
    k ∉ rs.map Record.id ∧ k ∉ dead.map Record.id

/-- In every history and under every number of the transaction, both builders
reject the key `k` omitted at position `m` exactly if the transaction writes it
at a position up to `m`. -/
def DecidedByPosition (o : SetOrder) (txn : List (Mop κ Value)) (m : Nat) (k : κ) : Prop :=
  ∀ (H : List (Entry (Mop κ Value))) (allUpserts : Positions κ Value) (G : ArgumentedPolyGraph κ)
    (T : Nat), allIndex H allUpsertFn = .ok allUpserts → G.nNodes = H.length → TxnAt H T txn →
    ((∃ msg, AdyaSIChain.addOmitted o allUpserts (T, m) G k = .error (.reject msg)) ↔
        ∃ p, p ≤ m ∧ WritesKey txn p k) ∧
      ((∃ msg, AdyaSI.addOmitted o allUpserts (T, m) G k = .error (.reject msg)) ↔
        ∃ p, p ≤ m ∧ WritesKey txn p k)

/-- A transaction that writes no version twice can have every number. -/
theorem upserts_historyWith (n : Nat) {txn : List (Mop κ Value)} {d : Dict κ (Dict Value Nat)}
    (hd : allUpsertFn txn = .ok d) :
    ∃ allUpserts, allIndex (historyWith n txn) allUpsertFn = .ok allUpserts := by
  have hnil : allUpsertFn ([] : List (Mop κ Value)) = .ok Dict.empty := rfl
  have hlast : ∀ i j k v, HasAt allUpsertFn (historyWith n txn) i j k v → i = n + 1 := by
    rintro i j k v ⟨txn', m, ht, hm, hk⟩
    rcases txnAt_historyWith ht with rfl | ⟨hi, _⟩
    · cases hnil.symm.trans hm
      cases hk
    · exact hi
  apply allIndex_total (loaded_historyWith n txn)
  · intro i txn' ht
    rcases txnAt_historyWith ht with rfl | ⟨_, rfl⟩
    · exact ⟨_, hnil⟩
    · exact ⟨d, hd⟩
  · intro i j i' j' k v hi hi'
    rw [hlast i j k v hi, hlast i' j' k v hi']

/-- Under one number, both builders decide an omitted key by its position in the
transaction exactly if the number separates the same upserts as the position. -/
theorem addOmitted_agrees_iff (o : SetOrder) {H : List (Entry (Mop κ Value))}
    {allUpserts : Positions κ Value} (hU : allIndex H allUpsertFn = .ok allUpserts)
    {G : ArgumentedPolyGraph κ} (hG : G.nNodes = H.length) {T m : Nat} {k : κ}
    {txn : List (Mop κ Value)} (ht : TxnAt H T txn) :
    (((∃ msg, AdyaSIChain.addOmitted o allUpserts (T, m) G k = .error (.reject msg)) ↔
          ∃ p, p ≤ m ∧ WritesKey txn p k) ∧
        ((∃ msg, AdyaSI.addOmitted o allUpserts (T, m) G k = .error (.reject msg)) ↔
          ∃ p, p ≤ m ∧ WritesKey txn p k)) ↔
      ((∃ p, p ≤ T ∧ WritesKey txn p k) ↔ ∃ p, p ≤ m ∧ WritesKey txn p k) := by
  rw [AdyaSIChain.addOmitted, AdyaSI.addOmitted, addOmittedKey_rejects_iff hU o hG ht.lt,
    addOmittedKey_rejects_iff hU o hG ht.lt]
  simp only [upsertAt_iff ht, and_true]

/-- The decision depends on positions only if one of the first two operations
writes the key before the query, or none writes it at all. Without an upsert
index no query is decided. -/
theorem decidedByPosition_iff (o : SetOrder) (txn : List (Mop κ Value)) (m : Nat) (k : κ)
    (hom : OmitsIn txn m k) :
    DecidedByPosition o txn m k ↔ (∀ d, allUpsertFn txn ≠ .ok d) ∨ (∀ p, ¬ WritesKey txn p k) ∨
      ∃ p, p < m ∧ p ≤ 1 ∧ WritesKey txn p k := by
  have hquery : ∀ p, p ≤ m → WritesKey txn p k → p < m := by
    rintro p hp ⟨v, succ, hw⟩
    obtain ⟨_, _, _, _, _, hm, _⟩ := hom
    refine Nat.lt_of_le_of_ne hp (fun he => ?_)
    rw [he, hm] at hw
    cases hw
  constructor
  · intro h
    by_cases hnone : ∀ d, allUpsertFn txn ≠ .ok d
    · exact .inl hnone
    by_cases hno : ∀ p, ¬ WritesKey txn p k
    · exact .inr (.inl hno)
    push Not at hnone hno
    obtain ⟨d, hd⟩ := hnone
    obtain ⟨p₀, hp₀⟩ := hno
    have hnumber : ∀ n, (∃ p, p ≤ n + 1 ∧ WritesKey txn p k) ↔ ∃ p, p ≤ m ∧ WritesKey txn p k := by
      intro n
      obtain ⟨allUpserts, hU⟩ := upserts_historyWith n hd
      have hdecided := h (historyWith n txn) allUpserts
        (.init (historyWith n txn).length) (n + 1) hU rfl (txnAt_last n txn)
      exact (addOmitted_agrees_iff o hU rfl (txnAt_last n txn)).mp hdecided
    -- a large number lets the chain builder reject, so position `m` must; then number 1 must too
    have hearly := (hnumber p₀).mp ⟨p₀, Nat.le_succ p₀, hp₀⟩
    have hfirst := (hnumber 0).mpr hearly
    obtain ⟨p, hp, hw⟩ := hfirst
    obtain ⟨p', hp', hw'⟩ := hearly
    have hlt := hquery p' hp' hw'
    rcases Nat.lt_or_ge p m with hpm | hpm
    · exact .inr (.inr ⟨p, hpm, hp, hw⟩)
    · exact .inr (.inr ⟨p', hlt, by omega, hw'⟩)
  · intro h H allUpserts G T hU hG ht
    rw [addOmitted_agrees_iff o hU hG ht]
    rcases h with hnone | hno | ⟨p, hpm, hp, hw⟩
    · obtain ⟨d, hd⟩ := allIndex_each hU ht
      exact absurd hd (hnone d)
    · exact iff_of_false (fun ⟨p, _, hw⟩ => hno p hw) (fun ⟨p, _, hw⟩ => hno p hw)
    · exact iff_of_true ⟨p, hp.trans ht.1, hw⟩ ⟨p, hpm.le, hw⟩

/-- A scan of `0..9`, two reads, and a write of a key in the scanned range. -/
def scanReadsWrite : List (Mop Nat Value) :=
  [.range (some 0) (some 9) [] [] none, .r 20 (.int 0) false, .r 21 (.int 0) false,
    .w 5 (.int 3) true]

theorem decidedByPosition_iff_scan : OmitsIn scanReadsWrite 0 5 ∧ OmitsIn scanReadsWrite 0 4 ∧
    ¬ DecidedByPosition .stored scanReadsWrite 0 5 ∧
    DecidedByPosition .stored scanReadsWrite 0 4 := by
  have hscan : scanReadsWrite[0]? = some (.range (some 0) (some 9) [] [] none) := rfl
  have hom : OmitsIn scanReadsWrite 0 5 :=
    ⟨some 0, some 9, [], [], none, hscan, by decide, by simp, by simp⟩
  have hom' : OmitsIn scanReadsWrite 0 4 :=
    ⟨some 0, some 9, [], [], none, hscan, by decide, by simp, by simp⟩
  refine ⟨hom, hom', ?_, ?_⟩
  · rw [decidedByPosition_iff .stored scanReadsWrite 0 5 hom]
    rintro (hnone | hno | ⟨p, hp, _⟩)
    · exact hnone _ rfl
    · exact hno 3 ⟨.int 3, true, rfl⟩
    · exact absurd hp (Nat.not_lt_zero p)
  · refine (decidedByPosition_iff .stored scanReadsWrite 0 4 hom').mpr (.inr (.inl ?_))
    rintro p ⟨v, succ, hw⟩
    have hmem := List.mem_of_getElem? hw
    simp [scanReadsWrite] at hmem

/-- Transaction 1 scans an empty range and then writes a key of it. -/
def scanThenWrite : List (Entry (Mop Nat Value)) :=
  [⟨0, none⟩, ⟨1, some [.range (some 0) (some 9) [] [] none, .w 5 (.int 1) true]⟩]

/-- The chain builder rejects the transaction although it writes the key only
after the query; the plain builder does not. -/
theorem chain_rejects_scanThenWrite :
    Omits scanThenWrite 1 0 5 ∧ (¬ ∃ p, p ≤ 0 ∧ UpsertAt scanThenWrite 1 p 5) ∧
    AdyaSIChain.createKnowngraph .stored scanThenWrite [scanThenWrite.tail] false false =
    .error (.reject "") ∧
    ∃ G, AdyaSI.constructGraphFromLog .stored scanThenWrite
      [scanThenWrite.tail] false false = .ok G := by
  refine ⟨⟨some 0, some 9, [], [],
    ⟨_, none, ⟨by decide, _, rfl, rfl⟩, rfl⟩, by decide, by simp, by simp⟩, ?_, rfl, _, rfl⟩
  rintro ⟨p, hp, txn, v, succ, ⟨_, e, he, hv⟩, hj⟩
  obtain rfl : p = 0 := Nat.le_zero.mp hp
  cases he
  cases hv
  cases hj

end Viper
