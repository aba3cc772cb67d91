import Viper.ChainAgreement

/-!
# The register builders trip no assertion

On a log of reads, writes that may fail and two-sided range queries, with unique
versions and transactions that `check_INT` accepts, both builders return or
reject. The test of future reads keeps readers apart from writers, and the
read-modify-writes of a key link every writer to at most one other on each side.
-/
namespace Viper

open Py Chains

section Histories

variable {κ : Type}

/-- Reads, writes that may fail, and range queries with two bounds and integer values. -/
def Mop.Logged : Mop κ Value → Prop
  | .r _ _ _ => True
  | .w _ _ _ => True
  | .range k1 k2 rs dead _ => k1.isSome ∧ k2.isSome ∧ ∀ item ∈ rs ++ dead, item.val.isInt = true
  | _ => False

instance : (mop : Mop κ Value) → Decidable mop.Logged
  | .r _ _ _ => .isTrue trivial
  | .w _ _ _ => .isTrue trivial
  | .range k1 k2 rs dead _ =>
    inferInstanceAs (Decidable (k1.isSome ∧ k2.isSome ∧ ∀ item ∈ rs ++ dead, item.val.isInt = true))
  | .i _ _ _ _ _ => .isFalse id
  | .d _ _ _ _ _ => .isFalse id
  | .append _ _ => .isFalse id

variable [LinearOrder κ]

/-- Parsed histories of reads, writes and two-sided queries with integer records, with
or without an initial transaction of successful writes. Every transaction passes
`check_INT`, and no version is written twice. -/
structure LoggedHistory (H : List (Entry (Mop κ Value))) : Prop where
  initial :
    ∃ e, H.head? = some e ∧ ∀ ops, e.value = some ops → ∀ mop ∈ ops, ∃ k v, mop = .w k v true
  complete : ∀ i, 0 < i → i < H.length → ∃ txn, TxnAt H i txn
  logged : ∀ i txn, TxnAt H i txn → ∀ mop ∈ txn, mop.Logged
  internal : ∀ i txn, TxnAt H i txn → checkINT txn = .ok true
  unique : UniqueWrites H

variable {H : List (Entry (Mop κ Value))}

omit [LinearOrder κ] in
theorem Mop.Logged.basic {mop : Mop κ Value} (h : mop.Logged) : mop.Basic := by
  cases mop with
  | r | w | range => trivial
  | i | d | append => exact h

theorem LoggedHistory.wellFormed (h : LoggedHistory H) : WellFormed H where
  initial := initialState_total h.initial
  complete := h.complete
  admissible i txn ht mop hm := by
    have hlogged := h.logged i txn ht mop hm
    cases mop with
    | range => exact admissible_range (h.internal i txn ht) hm hlogged.1 hlogged.2.1
    | r | w | append => trivial
    | i | d => exact hlogged.elim
  unique := h.unique
  apart :=
    apart_of_checkINT h.unique h.internal (fun i txn ht mop hm => (h.logged i txn ht mop hm).basic)

end Histories

section Builders

variable {κ : Type} [LinearOrder κ] [ToString κ]

/-- What the assertions of the two builders ask for, where they stand. -/
structure Unasserted (o : SetOrder) (H : List (Entry (Mop κ Value)))
    (histories : List (List (Entry (Mop κ Value)))) (strongSession : Bool) : Prop where
  plain : (∃ G, AdyaSI.constructGraphFromLog o H histories strongSession false = .ok G) ∨
    Rejects (AdyaSI.constructGraphFromLog o H histories strongSession false)
  chain : (∃ e, AdyaSIChain.constructEncoding o H histories strongSession false = .ok e) ∨
    Rejects (AdyaSIChain.constructEncoding o H histories strongSession false)
  /-- all calls of `add_edge` and `add_edge_pair` by the plain builder -/
  plainCalls :
    ∀ t, t.Of H → ∀ c, .ok c ∈ AdyaSI.script o H histories strongSession false t → c.Valid H.length
  /-- those of the chain builder, before and after it looks for read-modify-writes -/
  chainCalls : ∀ t, t.Of H → ∀ c, .ok c ∈ AdyaSIChain.scriptBefore o H histories strongSession t ∨
    .ok c ∈ AdyaSIChain.scriptAfter o H false t → c.Valid H.length
  /-- those of `infer_rw_edges` -/
  inferCalls :
    ∀ known chains, AdyaSIChain.createKnowngraph o H histories strongSession false = .ok known →
    AdyaSIChain.combineWrites o (singleChains o known.extWrites) known.wwpairs = .ok chains →
    ∀ c, .ok c ∈ inferScript o chains known.readfrom → c.Valid H.length
  writers : ∀ X, extIndex H extWritesFn = .ok X → ∀ k v, (o.iter (getIn X k v)).length ≤ 1
  /-- the searches of `combine_writes`, after the pairs it has already combined -/
  found : ∀ known, AdyaSIChain.createKnowngraph o H histories strongSession false = .ok known →
    ∀ done k tx1 tx2 rest, known.wwpairs.entries = done ++ ((k, tx1), tx2) :: rest →
      ∀ sanity chains, done.foldlM (combineStep o sanity)
        (singleChains o known.extWrites) = .ok chains →
        ∃ chain1 chain2, findChain o chains k tx1 Chain.last = .ok chain1 ∧
          findChain o chains k tx2 Chain.first = .ok chain2

variable {o : SetOrder} {H : List (Entry (Mop κ Value))}
  {histories : List (List (Entry (Mop κ Value)))} {strongSession hasFinal : Bool} {t : Tables κ}

theorem AdyaSI.Checked.returns_or_rejects
    (h : AdyaSI.Checked o H histories strongSession hasFinal t) :
    (∃ G, AdyaSI.constructGraphFromLog o H histories strongSession hasFinal = .ok G) ∨
      Rejects (AdyaSI.constructGraphFromLog o H histories strongSession hasFinal) := by
  by_cases hex : ∃ e, KnownStep H histories strongSession t.initial Prod.snd
    (AdyaSI.finOf o H hasFinal t) (.error e)
  · obtain ⟨e, he⟩ := hex
    exact .inr (h.rejected he)
  · obtain ⟨G, hG, _⟩ := h.built (not_exists.mp hex)
    exact .inl ⟨G, hG⟩

theorem AdyaSIChain.Checked.returns_or_rejects
    (h : AdyaSIChain.Checked o H histories strongSession hasFinal t) :
    (∃ e, AdyaSIChain.constructEncoding o H histories strongSession hasFinal = .ok e) ∨
      Rejects (AdyaSIChain.constructEncoding o H histories strongSession hasFinal) := by
  by_cases hbad : (∃ e, AdyaSIChain.Known o H histories strongSession hasFinal t (.error e)) ∨
    AdyaSIChain.Diverging H
  · obtain ⟨msg, hrej⟩ := h.rejected hbad
    exact .inr ⟨msg, by rw [constructEncoding, hrej]; rfl⟩
  · obtain ⟨hno, hdiv⟩ := not_or.mp hbad
    obtain ⟨known, hknown, hb⟩ := h.built (not_exists.mp hno) hdiv
    rcases hb.genConstraints_cases h.plain.tables with ⟨_, _, g, hg, _⟩ | ⟨_, _, _, _, hg⟩
    · exact .inl ⟨_, by rw [constructEncoding, hknown, ok_bind, hg]⟩
    · exact .inr ⟨_, by rw [constructEncoding, hknown, ok_bind, hg]⟩

namespace AdyaSIChain

variable {known : KnownGraph κ} (hb : Built o H histories strongSession hasFinal t known)
  (ht : t.Of H)
include hb ht

/-- The chains after some of the pairs. -/
theorem Built.chained {done : List ((κ × Nat) × Nat)} {sanity : Chain → Chain → Except Err Unit}
    {chains : ChainTable κ}
    (h : done.foldlM (combineStep o sanity) (singleChains o known.extWrites) = .ok chains) (k : κ) :
    Chained (fun i => ∃ v, Has extWritesFn H i k v) (fun a b => ((k, a), b) ∈ done) (chains.of k) :=
  combineRun_of_ok (d := [])
    (fun k => (chained_singleChains (hb.extWrites_spec ht) o k).congr (fun _ => Iff.rfl)
    (fun _ _ => by simp)) h k

/-- The next pair finds the chain that its first transaction ends and the chain
that its second one starts. -/
theorem Built.found {done rest : List ((κ × Nat) × Nat)} {k : κ} {tx1 tx2 : Nat}
    (he : known.wwpairs.entries = done ++ ((k, tx1), tx2) :: rest)
    {sanity : Chain → Chain → Except Err Unit}
    {chains : ChainTable κ}
    (h : done.foldlM (combineStep o sanity) (singleChains o known.extWrites) = .ok chains) :
    ∃ chain1 chain2, findChain o chains k tx1 Chain.last = .ok chain1 ∧
      findChain o chains k tx2 Chain.first = .ok chain2 := by
  have hmem : ∀ {k' a b}, ((k', a), b) ∈ done ++ ((k, tx1), tx2) :: rest →
    known.wwpairs.get? (k', a) = some b :=
    fun {k' a b} hm => (known.wwpairs.mem_entries (k', a) b).mp (he ▸ hm)
  have hpair : known.wwpairs.get? (k, tx1) = some tx2 :=
    hmem (List.mem_append_right _ List.mem_cons_self)
  have hkeys : ((done ++ ((k, tx1), tx2) :: rest).map Prod.fst).Nodup := he ▸ known.wwpairs.nodup
  -- a dict has one entry a key, so `tx1` ends a chain
  have hlast : ∀ y, ((k, tx1), y) ∉ done := by
    intro y hy
    rw [List.map_append, List.map_cons] at hkeys
    exact (List.nodup_append.mp hkeys).2.2 (k, tx1) (List.mem_map.mpr ⟨_, hy, rfl⟩)
      (k, tx1) List.mem_cons_self rfl
  -- two predecessors of `tx2` would be two writers of the version it reads
  have hfirst : ∀ x, ((k, x), tx2) ∉ done := by
    intro x hx
    obtain rfl := hb.wwpairs_injective k x tx1 tx2 (hmem (List.mem_append_left _ hx)) hpair
    exact hlast tx2 hx
  obtain ⟨hw1, hw2⟩ := hb.wwpairs_writes k tx1 tx2 hpair
  obtain ⟨C, D, _, _, hC, _, _, hD⟩ :=
    findChains_total (o := o) (hb.chained ht h) hw1 hw2 hlast hfirst
  exact ⟨C, D, hC, hD⟩

end AdyaSIChain

/-- The register builders trip no assertion on parsed histories. -/
theorem unasserted_of_logged (o : SetOrder) (H : List (Entry (Mop κ Value)))
    (histories : List (List (Entry (Mop κ Value))))
    (strongSession : Bool) (hH : LoggedHistory H) (hS : SessionsOf H histories) :
    Unasserted o H histories strongSession := by
  have hW := hH.wellFormed
  obtain ⟨t, hc⟩ :=
    AdyaSI.checked_of_wellFormed strongSession false o hW hS (fun t _ x hx => by cases hx)
  have hchain : AdyaSIChain.Checked o H histories strongSession false t := by
    refine ⟨hc, writes_total hW.loaded hH.unique, ?_⟩
    intro q m k1 k2 rs dead hr
    obtain ⟨txn, fin, ht, hj⟩ := hr
    exact (hH.logged q txn ht _ (List.mem_of_getElem? hj)).2.2
  have hknown :
      ∀ {known}, AdyaSIChain.createKnowngraph o H histories strongSession false = .ok known →
      AdyaSIChain.Built o H histories strongSession false t known := by
    intro known hk
    obtain ⟨t', ht', hb⟩ := AdyaSIChain.built_of_ok hk
    obtain rfl := ht'.unique hc.tables
    exact hb
  refine ⟨hc.returns_or_rejects, hchain.returns_or_rejects, ?_, ?_, ?_, ?_, ?_⟩
  · intro t' ht' c hm
    obtain rfl := ht'.unique hc.tables
    exact hc.valid_script c hm
  · intro t' ht' c hm
    obtain rfl := ht'.unique hc.tables
    exact hchain.valid ((hchain.mem_scripts _).mp hm)
  · intro known chains hk hcombine c hm
    have hb := hknown hk
    have hchaining : Versions.Chaining (workload H) (AdyaSIChain.Rmw H) chains.of := by
      intro k
      refine (hb.chained hc.tables hcombine k).congr (fun _ => Iff.rfl) (fun a b => ?_)
      exact (known.wwpairs.mem_entries (k, a) b).trans (hb.wwpairs k a b)
    obtain ⟨c', he, hv⟩ := hb.inferScript_valid hc.tables hchaining _ hm
    cases he
    exact hv
  · intro X hX k v
    rcases writers_cases (extIndex_spec hX) o k v
      with ⟨he, _⟩ | ⟨i, he, _⟩ | ⟨i, i', _, _, hne, hi, hi'⟩
    · rw [he]
      exact Nat.zero_le 1
    · rw [he]
      exact Nat.le_refl 1
    · exact absurd (hH.unique.ext hi hi') hne
  · intro known hk done k tx1 tx2 rest he sanity chains hrun
    exact (hknown hk).found hc.tables he hrun

/-- An initial transaction, two read-modify-writes of its version in a row, a
write that fails, and a scan. -/
def loggedHistory : List (Entry (Mop Nat Value)) :=
  [⟨0, some [.w 1 (.int 7) true]⟩,
    ⟨1, some [.r 1 (.int 7) false, .w 1 (.int 8) true, .w 2 (.int 9) false]⟩,
    ⟨2, some [.r 1 (.int 8) false, .w 1 (.int 5) true]⟩,
    ⟨3, some [.range (some 0) (some 3) [⟨1, .int 5⟩] [] none]⟩]

def loggedSessions : List (List (Entry (Mop Nat Value))) := [loggedHistory.tail]

theorem logged_loggedHistory : LoggedHistory loggedHistory where
  initial := by
    refine ⟨_, rfl, ?_⟩
    intro ops hops mop hm
    cases hops
    exact ⟨1, .int 7, List.mem_singleton.mp hm⟩
  complete i hi hn := by
    match i, hi, hn with
    | 1, _, _ | 2, _, _ | 3, _, _ => exact ⟨_, by decide, _, rfl, rfl⟩
    | i + 4, _, hn => exact absurd hn (by simp [loggedHistory])
  logged := forall_txnAt.mpr (by decide)
  internal := forall_txnAt.mpr (by decide)
  unique := uniqueWrites_iff.mpr (by decide)

theorem sessions_loggedSessions : SessionsOf loggedHistory loggedSessions := by
  unfold SessionsOf
  decide

theorem unasserted_of_logged_history :
    LoggedHistory loggedHistory ∧ SessionsOf loggedHistory loggedSessions ∧
    Unasserted .stored loggedHistory loggedSessions true :=
  ⟨logged_loggedHistory, sessions_loggedSessions,
    unasserted_of_logged .stored loggedHistory loggedSessions true logged_loggedHistory
      sessions_loggedSessions⟩

end Builders

end Viper
