import Viper.Main
import Viper.RegisterStore
import Viper.StoreEvents

/-!
# Logs of a store with snapshot isolation

Whatever the interleaving of a run of the register store, its logs are accepted.
If what was seen first fits the initial state, logs are only accepted if some run
of the store leaves them behind.
-/
namespace Viper

open Py Parse Numbering SnapshotStore

section Definitions

variable {κ : Type} [LinearOrder κ]

/-- A transaction waits for the one before it in its session, if the order of sessions counts. -/
def sessionPrior {μ : Type} (histories : List (List (Entry μ))) (strongSession : Bool)
    (i j : Nat) : Prop :=
  strongSession = true ∧ Consecutive histories i j

/-- The transactions of the history are the committed ones. -/
def Records (log : List (Txn Nat (Mop κ Value) (Dict κ Value)))
    (H : List (Entry (Mop κ Value))) : Prop :=
  ∀ i txn, TxnAt H i txn ↔ ∃ t ∈ log, t.name = i ∧ t.ops = txn

/-- The logs are left behind by a run of the store. -/
def LoggedRun (init : κ → Option Value) (logs : List (Log κ)) (strongSession : Bool) : Prop :=
  ∃ st, Reachable registers init (sessionPrior (historiesOf logs) strongSession) st ∧
    Records st.log (historyOf logs)

end Definitions

section Commits

variable {κ : Type} [LinearOrder κ]

/-- No transaction writes null or an initial value. -/
def Fresh (init : κ → Option Value) (H : List (Entry (Mop κ Value))) : Prop :=
  ∀ i txn, TxnAt H i txn → ∀ k v succ, .w k v succ ∈ txn → v ≠ NULL_VALUE ∧ init k ≠ some v

omit [LinearOrder κ] in
theorem ne_of_fresh {init : κ → Option Value} {k : κ} {v : Value}
    (h : v ≠ NULL_VALUE ∧ init k ≠ some v) :
    (init k).getD NULL_VALUE ≠ v := by
  intro hv
  cases hk : init k with
  | none =>
    rw [hk] at hv
    exact h.1 hv.symm
  | some w =>
    rw [hk] at hv
    exact h.2 (hk.trans (congrArg some hv))

/-- Commits of a store, as a history. -/
structure CommitLog (init : κ → Option Value) (H : List (Entry (Mop κ Value)))
    (histories : List (List (Entry (Mop κ Value))))
    (strongSession : Bool) (log : List (Txn Nat (Mop κ Value) (Dict κ Value))) : Prop where
  valid : Valid registers init (sessionPrior histories strongSession) log
  records : Records log H
  sessions : SessionsOf H histories
  complete : ∀ i, 0 < i → i < H.length → ∃ txn, TxnAt H i txn
  unique : UniqueWrites H
  fresh : Fresh init H

variable {init : κ → Option Value} {H : List (Entry (Mop κ Value))}
  {histories : List (List (Entry (Mop κ Value)))}
  {strongSession : Bool} {log : List (Txn Nat (Mop κ Value) (Dict κ Value))}
  {t u : Txn Nat (Mop κ Value) (Dict κ Value)}

namespace CommitLog

theorem runs (h : CommitLog init H histories strongSession log) (ht : t ∈ log) :
    Runs registers (view registers init (log.take t.snapshot)) Dict.empty t.ops t.state :=
  (h.valid.begun t ht).runs

theorem txnAt (h : CommitLog init H histories strongSession log) (ht : t ∈ log) :
    TxnAt H t.name t.ops :=
  (h.records _ _).mpr ⟨t, ht, rfl, rfl⟩

theorem exists_commit (h : CommitLog init H histories strongSession log) {i : Nat}
    {txn : List (Mop κ Value)}
    (ht : TxnAt H i txn) : ∃ (p : Nat) (t : Txn Nat (Mop κ Value) (Dict κ Value)),
    log[p]? = some t ∧ t.name = i ∧ t.ops = txn := by
  obtain ⟨t, hm, hname, hops⟩ := (h.records i txn).mp ht
  obtain ⟨p, hp⟩ := List.getElem?_of_mem hm
  exact ⟨p, t, hp, hname, hops⟩

theorem extWrites (h : CommitLog init H histories strongSession log) (ht : t ∈ log)
    {k : κ} {v : Value} (hv : t.state.get? k = some v) : Has extWritesFn H t.name k v :=
  ⟨t.ops, t.state, h.txnAt ht, extWrites_of_runs (h.runs ht), hv⟩

theorem exists_writer (h : CommitLog init H histories strongSession log) {i : Nat}
    {k : κ} {v : Value}
    (hw : Has extWritesFn H i k v) : ∃ (p : Nat) (t : Txn Nat (Mop κ Value) (Dict κ Value)),
      log[p]? = some t ∧ t.name = i ∧ t.state.get? k = some v := by
  obtain ⟨txn, m, ht, hm, hv⟩ := hw
  obtain ⟨p, t, hp, hname, rfl⟩ := h.exists_commit ht
  have hstate := extWrites_of_runs (h.runs (List.mem_of_getElem? hp))
  obtain rfl : t.state = m := Except.ok.inj (hstate.symm.trans hm)
  exact ⟨p, t, hp, hname, hv⟩

/-- External reads are those of the snapshot. -/
theorem exists_reader (h : CommitLog init H histories strongSession log) {j : Nat}
    {k : κ} {v : Value}
    (hr : Has extReadsFn H j k v) : ∃ (q : Nat) (u : Txn Nat (Mop κ Value) (Dict κ Value)),
      log[q]? = some u ∧ u.name = j ∧
      (view registers init (log.take u.snapshot) k).getD NULL_VALUE = v := by
  obtain ⟨txn, m, ht, hm, hv⟩ := hr
  obtain ⟨q, u, hq, hname, rfl⟩ := h.exists_commit ht
  exact ⟨q, u, hq, hname, extReads_of_runs (h.runs (List.mem_of_getElem? hq)) hm hv⟩

/-- A version that was written comes from the last commit to its key. -/
theorem last_writer (h : CommitLog init H histories strongSession log) {k : κ} {v : Value} {n : Nat}
    (hv : (view registers init (log.take n) k).getD NULL_VALUE = v) {i : Nat}
    (hw : Has extWritesFn H i k v) :
    ∃ (p : Nat) (t : Txn Nat (Mop κ Value) (Dict κ Value)), log[p]? = some t ∧ t.name = i ∧ p < n ∧
      ∀ (p' : Nat) (t' : Txn Nat (Mop κ Value) (Dict κ Value)), p < p' → p' < n →
      log[p']? = some t' → t'.state.get? k = none := by
  obtain ⟨p₀, t₀, hp₀, rfl, hv₀⟩ := h.exists_writer hw
  obtain ⟨mop, hmop, hwritten⟩ :=
    extWritesFn_written (extWrites_of_runs (h.runs (List.mem_of_getElem? hp₀))) hv₀
  have hnew : v ≠ NULL_VALUE ∧ init k ≠ some v := by
    obtain ⟨m, hm⟩ := List.getElem?_of_mem hmop
    obtain ⟨_, _, hshows⟩ := shows_of_runs (h.runs (List.mem_of_getElem? hp₀)) hm
    cases mop with
    | w k' v' succ =>
      cases hwritten
      exact h.fresh _ _ (h.txnAt (List.mem_of_getElem? hp₀)) k v succ hmop
    | r | range => cases hwritten
    | i | d | append => exact hshows.elim
  cases view_cases (C := registers) init (log.take n) k with
  | inr hnone =>
    rw [hnone.2] at hv
    exact absurd hv (ne_of_fresh hnew)
  | inl hlast =>
    obtain ⟨l₁, t, l₂, w, hsplit, hw', hno, hview⟩ := hlast
    rw [hview] at hv
    obtain rfl : w = v := hv
    have hp : (log.take n)[l₁.length]? = some t := by
      rw [hsplit, List.getElem?_append_right (Nat.le_refl _), Nat.sub_self]
      rfl
    have hlt : l₁.length < n := by
      have hlen := (List.getElem?_eq_some_iff.mp hp).1
      rw [List.length_take] at hlen
      omega
    rw [List.getElem?_take_of_lt hlt] at hp
    refine ⟨l₁.length, t, hp, h.unique.ext (h.extWrites (List.mem_of_getElem? hp) hw') hw, hlt, ?_⟩
    intro p' t' hlt' hn hp'
    apply hno t'
    rw [← List.getElem?_take_of_lt hn, hsplit, List.getElem?_append_right hlt'.le] at hp'
    obtain ⟨d, hd⟩ : ∃ d, p' - l₁.length = d + 1 := ⟨p' - l₁.length - 1, by omega⟩
    rw [hd, List.getElem?_cons_succ] at hp'
    exact List.mem_of_getElem? hp'

/-- A version that nobody wrote is the initial one, and nobody has written the key yet. -/
theorem not_written (h : CommitLog init H histories strongSession log) {k : κ} {v : Value} {n : Nat}
    (hv : (view registers init (log.take n) k).getD NULL_VALUE = v)
    (hno : ∀ i, ¬ Has extWritesFn H i k v) :
    (∀ (p : Nat) (t : Txn Nat (Mop κ Value) (Dict κ Value)), p < n → log[p]? = some t →
      t.state.get? k = none) ∧
      (init k).getD NULL_VALUE = v := by
  cases view_cases (C := registers) init (log.take n) k with
  | inl hlast =>
    obtain ⟨l₁, t, l₂, w, hsplit, hw, _, hview⟩ := hlast
    rw [hview] at hv
    obtain rfl : w = v := hv
    have hm : t ∈ log.take n := hsplit ▸ List.mem_append_right l₁ List.mem_cons_self
    exact absurd (h.extWrites (List.mem_of_mem_take hm) hw) (hno t.name)
  | inr hnone =>
    rw [hnone.2] at hv
    refine ⟨?_, hv⟩
    intro p t hp ht
    exact hnone.1 t (List.mem_of_getElem? ((List.getElem?_take_of_lt hp).trans ht))

/-- No transaction writes what its snapshot shows. -/
theorem writes_new (h : CommitLog init H histories strongSession log) {p : Nat}
    (hp : log[p]? = some t) {k : κ} {v : Value}
    {succ : Bool} (hw : .w k v succ ∈ t.ops) :
    (view registers init (log.take t.snapshot) k).getD NULL_VALUE ≠ v := by
  have hm := List.mem_of_getElem? hp
  have hnew := h.fresh _ _ (h.txnAt hm) k v succ hw
  cases view_cases (C := registers) init (log.take t.snapshot) k with
  | inr hnone =>
    rw [hnone.2]
    exact ne_of_fresh hnew
  | inl hlast =>
    obtain ⟨l₁, u, l₂, w, hsplit, hu, _, hview⟩ := hlast
    rw [hview]
    intro hv
    obtain rfl : w = v := hv
    have hmem : u ∈ log.take t.snapshot := hsplit ▸ List.mem_append_right l₁ List.mem_cons_self
    obtain ⟨mop, hmop, hwritten⟩ :=
      extWritesFn_written (extWrites_of_runs (h.runs (List.mem_of_mem_take hmem))) hu
    obtain ⟨j, hj⟩ := WrittenAt.of_mem (h.txnAt (List.mem_of_mem_take hmem)) hmop hwritten
    obtain ⟨j', hj'⟩ := WrittenAt.of_mem (h.txnAt hm) hw rfl
    -- both are the same commit, which is not before its own snapshot
    have hname := (h.unique _ _ _ _ _ _ hj hj').1
    obtain ⟨q, hq⟩ := List.getElem?_of_mem hmem
    have hlt := (List.getElem?_eq_some_iff.mp hq).1
    rw [List.length_take] at hlt
    have hqt : q < t.snapshot := Nat.lt_of_lt_of_le hlt (Nat.min_le_left _ _)
    rw [List.getElem?_take_of_lt hqt] at hq
    have hsame : q = p := by
      have hnames : (log.map Txn.name)[q]? = (log.map Txn.name)[p]? := by
        rw [List.getElem?_map, List.getElem?_map, hq, hp, Option.map_some, Option.map_some, hname]
      have hlen : q < (log.map Txn.name).length := by
        rw [List.length_map]
        exact (List.getElem?_eq_some_iff.mp hq).1
      exact (List.getElem?_inj hlen h.valid.names).mp hnames
    have hle := h.valid.before p t hp
    omega

theorem checkINT (h : CommitLog init H histories strongSession log) {p : Nat}
    (hp : log[p]? = some t)
    (hl : ∀ mop ∈ t.ops, mop.Logged)
    (hb : ∀ mop ∈ t.ops, mop.Bounded) : Viper.checkINT t.ops = .ok true := by
  have hm := List.mem_of_getElem? hp
  apply checkINT_of_runs (h.runs hm) hl hb
  · intro k v succ hw
    exact h.writes_new hp hw
  · rw [List.pairwise_iff_getElem]
    intro m n hm' hn hlt k v succ succ' he he'
    have hw : WrittenAt H t.name m k v :=
      ⟨_, _, h.txnAt hm, List.getElem?_eq_getElem hm', by rw [he]; rfl⟩
    have hw' : WrittenAt H t.name n k v :=
      ⟨_, _, h.txnAt hm, List.getElem?_eq_getElem hn, by rw [he']; rfl⟩
    exact absurd (h.unique _ _ _ _ _ _ hw hw').2 (Nat.ne_of_lt hlt)

theorem exists_upsert (h : CommitLog init H histories strongSession log) {i p : Nat} {k : κ}
    (hu : UpsertAt H i p k) :
    ∃ (n : Nat) (t : Txn Nat (Mop κ Value) (Dict κ Value)),
      log[n]? = some t ∧ t.name = i ∧ ∃ v, t.state.get? k = some v := by
  obtain ⟨txn, v, succ, ht, hw⟩ := hu
  obtain ⟨n, t, hn, hname, rfl⟩ := h.exists_commit ht
  have hruns := h.runs (List.mem_of_getElem? hn)
  obtain rfl := succeeds_of_runs hruns (List.mem_of_getElem? hw)
  exact ⟨n, t, hn, hname,
    (extWritesFn_key (extWrites_of_runs hruns) k).mpr ⟨_, List.mem_of_getElem? hw, rfl, rfl⟩⟩

/-- A key that a query omits is not there. -/
theorem exists_omitting (h : CommitLog init H histories strongSession log) {q m : Nat} {k : κ}
    (hom : Omits H q m k) :
    ∃ (n : Nat) (u : Txn Nat (Mop κ Value) (Dict κ Value)), log[n]? = some u ∧ u.name = q ∧
      view registers init (log.take u.snapshot) k = none ∧ ∀ p, p ≤ m → ¬ UpsertAt H q p k := by
  obtain ⟨k1, k2, rs, dead, ⟨txn, fin, ht, hm⟩, hin, hrs, hdead⟩ := hom
  obtain ⟨n, u, hn, hname, rfl⟩ := h.exists_commit ht
  obtain ⟨hview, hown⟩ := absent_of_runs (h.runs (List.mem_of_getElem? hn)) hm hin hrs hdead
  refine ⟨n, u, hn, hname, hview, ?_⟩
  intro p hp hu
  obtain ⟨txn', v, succ, ht', hw⟩ := hu
  obtain rfl := ht.unique ht'
  exact hown p hp v succ hw

/-- The begins and commits of a run are ordered as the builder asks. -/
theorem constrained (h : CommitLog init H histories strongSession log)
    (initial : Option (Dict κ Value)) :
    ∃ _ : LinearOrder Event, Constrained H histories strongSession initial := by
  obtain ⟨hlin, hf⟩ := exists_follows h.valid.names fun t ht => (h.txnAt ht).1
  refine ⟨hlin, ?_⟩
  constructor
  · intro i hi
    cases i with
    | zero => exact hf.zero
    | succ i =>
      obtain ⟨txn, ht⟩ := h.complete (i + 1) (Nat.succ_pos i) hi
      obtain ⟨p, t, hp, hname, _⟩ := h.exists_commit ht
      rw [← hname]
      exact hf.begins h.valid hp
  · intro i h0 hi
    obtain ⟨txn, ht⟩ := h.complete i h0 hi
    obtain ⟨p, t, hp, rfl, _⟩ := h.exists_commit ht
    exact hf.first t (List.mem_of_getElem? hp)
  · intro i j k v hr hw
    obtain ⟨q, u, hq, rfl, hv⟩ := h.exists_reader hr
    obtain ⟨p, t, hp, rfl, hpu, hlast⟩ := h.last_writer hv hw
    refine ⟨hf.seen hp hq hpu, ?_⟩
    intro x v' hx hxu
    obtain ⟨n, w, hn, rfl, hw'⟩ := h.exists_writer hx
    apply hf.le_of_position_le hn hp
    by_contra hpn
    rw [hlast n w (Nat.lt_of_not_le hpn) (hf.lt_snapshot hn hq hxu) hn] at hw'
    cases hw'
  · intro j k v hr hno _ x v' hx
    obtain ⟨q, u, hq, rfl, hv⟩ := h.exists_reader hr
    obtain ⟨n, w, hn, rfl, hw⟩ := h.exists_writer hx
    apply hf.not_seen hn hq
    by_contra hle
    rw [(h.not_written hv hno).1 n w (Nat.lt_of_not_le hle) hn] at hw
    cases hw
  · intro q m k hom i p hu _
    obtain ⟨n, w, hn, rfl, hview, _⟩ := h.exists_omitting hom
    obtain ⟨n', t, hn', rfl, v, hw⟩ := h.exists_upsert hu
    apply hf.not_seen hn' hn
    by_contra hle
    have hm := List.mem_of_getElem? ((List.getElem?_take_of_lt (Nat.lt_of_not_le hle)).trans hn')
    cases hw.symm.trans (untouched_of_none hview t hm)
  · intro i j k v v' hi hj hne
    obtain ⟨p, t, hp, rfl, hv⟩ := h.exists_writer hi
    obtain ⟨q, u, hq, rfl, hv'⟩ := h.exists_writer hj
    exact hf.apart h.valid hp hq hne (Option.ne_none_iff_exists'.mpr ⟨v, hv⟩)
      (Option.ne_none_iff_exists'.mpr ⟨v', hv'⟩)
  · intro hs i j hc
    obtain ⟨_, h0, _, hj⟩ := h.sessions.consecutive hc
    obtain ⟨txn, ht⟩ := h.complete j h0 hj
    obtain ⟨q, u, hq, rfl, _⟩ := h.exists_commit ht
    exact hf.waits h.valid hq ⟨hs, hc⟩

end CommitLog

end Commits

section Orders

variable {κ : Type} [LinearOrder κ]

/-- What the transactions saw before anything was written is the initial state. -/
structure FromStart (init : κ → Option Value) (H : List (Entry (Mop κ Value)))
    (initial : Option (Dict κ Value)) : Prop where
  reads : ∀ j k v, Has extReadsFn H j k v → (∀ i, ¬ Has extWritesFn H i k v) →
    fromInitial initial k v = true ∧ (init k).getD NULL_VALUE = v
  nulls : ∀ q m k1 k2 rs dead, RangeAt H q m k1 k2 rs dead →
    ∀ item ∈ rs ++ dead, item.val = NULL_VALUE →
    init item.id = some NULL_VALUE
  omitted : ∀ q m k, Omits H q m k → init k = none

def opsAt (H : List (Entry (Mop κ Value))) (i : Nat) : List (Mop κ Value) :=
  (H[i]?.bind Entry.value).getD []

def ownAt (H : List (Entry (Mop κ Value))) (i : Nat) : Dict κ Value :=
  (extWritesFn (opsAt H i)).toOption.getD Dict.empty

variable {H : List (Entry (Mop κ Value))} {i : Nat} {txn : List (Mop κ Value)}

omit [LinearOrder κ] in
theorem opsAt_eq (ht : TxnAt H i txn) : opsAt H i = txn := by
  obtain ⟨_, e, he, hv⟩ := ht
  rw [opsAt, he, Option.bind_some, hv, Option.getD_some]

theorem get?_ownAt (ht : TxnAt H i txn) {k : κ} {v : Value} :
    (ownAt H i).get? k = some v ↔ Has extWritesFn H i k v := by
  rw [ownAt, opsAt_eq ht]
  constructor
  · intro hv
    cases hm : extWritesFn txn with
    | error e =>
      rw [hm] at hv
      simp [Except.toOption] at hv
    | ok m =>
      rw [hm] at hv
      exact ⟨txn, m, ht, hm, hv⟩
  · intro hw
    obtain ⟨txn', m, ht', hm, hv⟩ := hw
    obtain rfl := ht.unique ht'
    rw [hm]
    exact hv

/-- What an accepted order of the events says, and what the logs say by themselves. -/
structure Replayable [LinearOrder Event] (init : κ → Option Value) (H : List (Entry (Mop κ Value)))
    (histories : List (List (Entry (Mop κ Value)))) (strongSession : Bool)
    (initial : Option (Dict κ Value)) : Prop where
  logged : LoggedHistory H
  simple : ∀ i txn, TxnAt H i txn → ∀ mop ∈ txn, mop.Simple
  bounded : ∀ i txn, TxnAt H i txn → ∀ mop ∈ txn, mop.Bounded
  sessions : SessionsOf H histories
  start : FromStart init H initial
  ownUpserts : ∀ q m k, Omits H q m k → ∀ p, p ≤ m → ¬ UpsertAt H q p k
  constrained : Constrained H histories strongSession initial

variable [LinearOrder Event] {init : κ → Option Value}
  {histories : List (List (Entry (Mop κ Value)))}
  {strongSession : Bool} {initial : Option (Dict κ Value)} {ids : List Nat}

namespace Replayable

/-- What transaction `i` sees. -/
def snapshotAt (init : κ → Option Value) (H : List (Entry (Mop κ Value))) (ids : List Nat)
    (i : Nat) : κ → Option Value :=
  view registers init (commitsBefore Event.s Event.c ids (opsAt H) (ownAt H) i)

theorem mem_commitsBefore {t : Txn Nat (Mop κ Value) (Dict κ Value)} :
    t ∈ commitsBefore Event.s Event.c ids (opsAt H) (ownAt H) i ↔
      ∃ j ∈ ids, Event.c j < Event.s i ∧
      t = scheduled Event.s Event.c ids (opsAt H) (ownAt H) j := by
  rw [commitsBefore, List.mem_map]
  constructor
  · intro h
    obtain ⟨j, hj, he⟩ := h
    obtain ⟨hm, hlt⟩ := List.mem_filter.mp hj
    exact ⟨j, hm, of_decide_eq_true hlt, he.symm⟩
  · intro h
    obtain ⟨j, hm, hlt, he⟩ := h
    exact ⟨j, List.mem_filter.mpr ⟨hm, decide_eq_true hlt⟩, he.symm⟩

theorem exists_txn (h : Replayable init H histories strongSession initial)
    (hids : ∀ i, i ∈ ids ↔ 0 < i ∧ i < H.length) (hi : i ∈ ids) : ∃ txn, TxnAt H i txn :=
  h.logged.complete i ((hids i).mp hi).1 ((hids i).mp hi).2

/-- A key that nobody has written before the begin. -/
theorem snapshotAt_unwritten (h : Replayable init H histories strongSession initial)
    (hids : ∀ i, i ∈ ids ↔ 0 < i ∧ i < H.length) {k : κ}
    (hno : ∀ x v, Has extWritesFn H x k v → ¬ Event.c x < Event.s i) :
    snapshotAt init H ids i k = init k := by
  apply view_untouched
  intro t ht
  obtain ⟨j, hj, hlt, rfl⟩ := mem_commitsBefore.mp ht
  obtain ⟨txn, htxn⟩ := h.exists_txn hids hj
  cases hv : (ownAt H j).get? k with
  | none => exact hv
  | some v => exact absurd hlt (hno j v ((get?_ownAt htxn).mp hv))

/-- A version that was written and read. -/
theorem snapshotAt_written (h : Replayable init H histories strongSession initial)
    (hids : ∀ i, i ∈ ids ↔ 0 < i ∧ i < H.length)
    (hsorted : ids.Pairwise fun i j => Event.c i < Event.c j) {w : Nat} {k : κ}
    {v : Value} (hr : Has extReadsFn H i k v)
    (hw : Has extWritesFn H w k v) : snapshotAt init H ids i k = some v := by
  obtain ⟨hlt, hlast⟩ := h.constrained.reads w i k v hr hw
  have hwm : w ∈ ids := (hids w).mpr hw.lt
  obtain ⟨wtxn, hwtxn⟩ := h.exists_txn hids hwm
  have hwrites : (ownAt H w).get? k = some v := (get?_ownAt hwtxn).mpr hw
  have hmem : scheduled Event.s Event.c ids (opsAt H)
    (ownAt H) w ∈ commitsBefore Event.s Event.c ids (opsAt H) (ownAt H) i :=
    mem_commitsBefore.mpr ⟨w, hwm, hlt, rfl⟩
  have hordered : (commitsBefore Event.s Event.c ids (opsAt H) (ownAt H) i).Pairwise fun t u =>
      Event.c t.name < Event.c u.name := List.pairwise_map.mpr (hsorted.filter _)
  cases view_cases (C := registers) init
    (commitsBefore Event.s Event.c ids (opsAt H) (ownAt H) i) k with
  | inr hnone => cases hwrites.symm.trans (hnone.1 _ hmem)
  | inl hcase =>
    obtain ⟨l₁, t, l₂, v', hsplit, hv', hno, hview⟩ := hcase
    have ht : t ∈ commitsBefore Event.s Event.c ids (opsAt H) (ownAt H) i :=
      hsplit ▸ List.mem_append_right l₁ List.mem_cons_self
    obtain ⟨j, hj, hjlt, rfl⟩ := mem_commitsBefore.mp ht
    obtain ⟨jtxn, hjtxn⟩ := h.exists_txn hids hj
    have hjw : Has extWritesFn H j k v' := (get?_ownAt hjtxn).mp hv'
    rw [hsplit] at hmem hordered
    have hjle : Event.c j ≤ Event.c w := hlast j v' hjw hjlt
    have hsame : w = j := by
      cases List.mem_append.mp hmem with
      | inl hm =>
        have hback := (List.pairwise_append.mp hordered).2.2 _ hm _ List.mem_cons_self
        exact absurd hjle (not_le.mpr hback)
      | inr hm =>
        cases List.mem_cons.mp hm with
        | inl he => exact congrArg Txn.name he
        | inr hm => cases hwrites.symm.trans (hno _ hm)
    subst hsame
    rw [snapshotAt, hview, hw.unique hjw]

/-- External reads show the snapshot. -/
theorem snapshotAt_read (h : Replayable init H histories strongSession initial)
    (hids : ∀ i, i ∈ ids ↔ 0 < i ∧ i < H.length)
    (hsorted : ids.Pairwise fun i j => Event.c i < Event.c j) {k : κ} {v : Value}
    (hr : Has extReadsFn H i k v) : (snapshotAt init H ids i k).getD NULL_VALUE = v := by
  by_cases hw : ∃ w, Has extWritesFn H w k v
  · obtain ⟨w, hw⟩ := hw
    rw [h.snapshotAt_written hids hsorted hr hw]
    rfl
  · have hno : ∀ w, ¬ Has extWritesFn H w k v := fun w hw' => hw ⟨w, hw'⟩
    obtain ⟨hf, hv⟩ := h.start.reads i k v hr hno
    rw [h.snapshotAt_unwritten hids (h.constrained.initialReads i k v hr hno hf)]
    exact hv

theorem exists_upsert (h : Replayable init H histories strongSession initial) {x : Nat} {k : κ}
    {mop : Mop κ Value}
    {txn : List (Mop κ Value)} (ht : TxnAt H x txn) (hm : mop ∈ txn)
    (hsets : mop.Sets k) : ∃ v, mop = .w k v true := by
  have hsimple := h.simple x txn ht mop hm
  cases mop with
  | w k' v succ =>
    obtain ⟨rfl, rfl⟩ := hsets
    exact ⟨v, rfl⟩
  | r | range => exact hsets.elim
  | i | d | append => exact hsimple.elim

/-- A key that a query omits is not in the snapshot. -/
theorem snapshotAt_omitted (h : Replayable init H histories strongSession initial)
    (hids : ∀ i, i ∈ ids ↔ 0 < i ∧ i < H.length) {m : Nat} {k : κ} (hi : i < H.length)
    (hom : Omits H i m k) :
    snapshotAt init H ids i k = none := by
  rw [h.snapshotAt_unwritten hids, h.start.omitted i m k hom]
  intro x v hw hlt
  have hne : x ≠ i := by
    intro he
    subst he
    exact lt_asymm hlt (h.constrained.begins x hi)
  obtain ⟨txn, writes, ht, hwrites, hv⟩ := hw
  obtain ⟨mop, hm, hsets⟩ := (extWritesFn_key hwrites k).mp ⟨v, hv⟩
  obtain ⟨v', rfl⟩ := h.exists_upsert ht hm hsets
  obtain ⟨p, hp⟩ := List.getElem?_of_mem hm
  exact h.constrained.ranges i m k hom x p ⟨txn, v', true, ht, hp⟩ hne hlt

/-- A query shows what the snapshot and the own writes hold within its bounds. -/
theorem shows_range (h : Replayable init H histories strongSession initial)
    (hids : ∀ i, i ∈ ids ↔ 0 < i ∧ i < H.length) {txn : List (Mop κ Value)} (ht : TxnAt H i txn)
    {m : Nat} {k1 k2 : Option κ}
    {rs dead : List (Record κ Value)} {fin : Option Bool} {own : Dict κ Value}
    (hm : txn[m]? = some (.range k1 k2 rs dead fin)) (hown : extWritesFn (txn.take m) = .ok own)
    (hall : ∀ item ∈ rs ++ dead, seen (filled (snapshotAt init H ids i)) own item.id =
      some item.val) :
    (Mop.range k1 k2 rs dead fin).Shows (snapshotAt init H ids i) own := by
  have hrange : RangeAt H i m k1 k2 rs dead := ⟨txn, fin, ht, hm⟩
  intro k v
  constructor
  · intro hmem
    refine ⟨h.bounded i txn ht _ (List.mem_of_getElem? hm) _ hmem, ?_⟩
    have hv := hall _ hmem
    rw [seen_filled] at hv
    cases hs : seen (snapshotAt init H ids i) own k with
    | some w =>
      rw [hs] at hv
      exact hv
    | none =>
      -- a record with null is an initial one
      rw [hs] at hv
      have hnull := h.start.nulls i m k1 k2 rs dead hrange _ hmem (Option.some.inj hv).symm
      have hview := (Option.or_eq_none_iff.mp hs).2
      have hinit := (view_untouched (untouched_of_none hview)).symm.trans hview
      cases hnull.symm.trans hinit
  · intro hv
    obtain ⟨hin, hv⟩ := hv
    by_cases hk : k ∈ (rs ++ dead).map Record.id
    · obtain ⟨item, hitem, rfl⟩ := List.mem_map.mp hk
      have hval := hall item hitem
      rw [seen_filled, hv] at hval
      obtain rfl : v = item.val := Option.some.inj hval
      exact hitem
    · rw [List.map_append, List.mem_append, not_or] at hk
      have hom : Omits H i m k := ⟨k1, k2, rs, dead, hrange, hin, hk.1, hk.2⟩
      cases ho : own.get? k with
      | none =>
        have hnone := h.snapshotAt_omitted hids ht.lt hom
        rw [seen, ho, Option.none_or, hnone] at hv
        cases hv
      | some u =>
        obtain ⟨mop, hmop, hsets⟩ := (extWritesFn_key hown k).mp ⟨u, ho⟩
        obtain ⟨v', rfl⟩ := h.exists_upsert ht (List.mem_of_mem_take hmop) hsets
        obtain ⟨p, hp⟩ := List.getElem?_of_mem hmop
        have hlt := (List.getElem?_eq_some_iff.mp hp).1
        rw [List.length_take] at hlt
        have hpm : p < m := Nat.lt_of_lt_of_le hlt (Nat.min_le_left _ _)
        rw [List.getElem?_take_of_lt hpm] at hp
        exact absurd ⟨txn, v', true, ht, hp⟩ (h.ownUpserts i m k hom p hpm.le)

/-- Every transaction is a run against its snapshot. -/
theorem runs (h : Replayable init H histories strongSession initial)
    (hids : ∀ i, i ∈ ids ↔ 0 < i ∧ i < H.length)
    (hsorted : ids.Pairwise fun i j => Event.c i < Event.c j) (hi : i ∈ ids) :
    Runs registers (snapshotAt init H ids i) Dict.empty (opsAt H i) (ownAt H i) := by
  obtain ⟨txn, ht⟩ := h.exists_txn hids hi
  have hsimple := h.simple i txn ht
  have hINT := h.logged.internal i txn ht
  have hadm := admissible_of_checkINT hINT hsimple
  obtain ⟨reads, hreads⟩ := extReadsFn_total hadm
  have hS : ∀ k v, reads.get? k = some v → filled (snapshotAt init H ids i) k = some v :=
    fun k v hv => congrArg some (h.snapshotAt_read hids hsorted ⟨txn, reads, ht, hreads, hv⟩)
  obtain ⟨st, hst, he⟩ := bind_eq_ok.mp hreads
  cases he
  obtain ⟨last, hlast, _⟩ := bind_eq_ok.mp hINT
  have hfaithful : ∀ mop ∈ txn, mop.Faithful := by
    intro mop hm
    have hmop := hsimple mop hm
    cases mop with
    | r | w => trivial
    | range => exact hmop
    | i | d | append => exact hmop.elim
  obtain ⟨own, hown, hw⟩ :=
    (synced_start (filled (snapshotAt init H ids i))).run hfaithful hlast hst keeps_start hS
  have hstate : ownAt H i = own := by
    rw [ownAt, opsAt_eq ht, extWritesFn, hw]
    rfl
  rw [hstate, opsAt_eq ht]
  apply runs_of_replay hsimple hown
  intro m k1 k2 rs dead fin own₁ hm hown₁ hall
  exact h.shows_range hids ht hm
    (extWrites_of_replay (fun mop hmop => hsimple mop (List.mem_of_mem_take hmop)) hown₁) hall

/-- The store could have followed the order. -/
theorem schedule (h : Replayable init H histories strongSession initial)
    (hids : ∀ i, i ∈ ids ↔ 0 < i ∧ i < H.length)
    (hsorted : ids.Pairwise fun i j => Event.c i < Event.c j) :
    Schedule Event.s Event.c ids (opsAt H) (ownAt H) registers init
      (sessionPrior histories strongSession) where
  sorted := hsorted
  begins i hi := h.constrained.begins i ((hids i).mp hi).2
  apart i hi j hj hne hk := by
    obtain ⟨k, hwi, hwj⟩ := hk
    obtain ⟨v, hv⟩ := Option.ne_none_iff_exists'.mp hwi
    obtain ⟨v', hv'⟩ := Option.ne_none_iff_exists'.mp hwj
    obtain ⟨txn, ht⟩ := h.exists_txn hids hi
    obtain ⟨txn', ht'⟩ := h.exists_txn hids hj
    exact h.constrained.apart i j k v v' ((get?_ownAt ht).mp hv) ((get?_ownAt ht').mp hv') hne
  prior u i _ hu := by
    obtain ⟨hs, hc⟩ := hu
    refine ⟨?_, h.constrained.sessions hs u i hc⟩
    obtain ⟨txns, ht, p, hp, rfl, rfl⟩ := hc
    exact (hids _).mpr ((h.sessions txns ht).2 p.1 (List.of_mem_zip hp).1)
  runs i hi := h.runs hids hsorted hi

theorem exists_run (h : Replayable init H histories strongSession initial) :
    ∃ st, Reachable registers init (sessionPrior histories strongSession) st ∧
      Records st.log H := by
  obtain ⟨ids, hmem, hsorted⟩ := exists_commitOrder (H.length - 1)
  have hids : ∀ i, i ∈ ids ↔ 0 < i ∧ i < H.length := by
    intro i
    rw [hmem]
    omega
  obtain ⟨running, hreach⟩ := valid_iff.mp (h.schedule hids hsorted).valid
  refine ⟨_, hreach, ?_⟩
  intro i txn
  constructor
  · intro ht
    exact ⟨_, List.mem_map_of_mem ((hids i).mpr ⟨ht.1, ht.lt⟩), rfl, opsAt_eq ht⟩
  · intro ht
    obtain ⟨t, hm, rfl, rfl⟩ := ht
    obtain ⟨j, hj, rfl⟩ := List.mem_map.mp hm
    obtain ⟨txn, ht⟩ := h.exists_txn hids hj
    rw [scheduled, opsAt_eq ht]
    exact ht

end Replayable

end Orders

section Verdicts

variable {κ : Type} [LinearOrder κ]

/-- The initial transaction of the logs, if there is one, has written the initial state. -/
def Preloaded (init : κ → Option Value) (logs : List (Log κ)) : Prop :=
  ∀ d, initialValues logs = some d → ∀ k, init k = d.get? k

variable {init : κ → Option Value} {logs : List (Log κ)} {strongSession : Bool}

omit [LinearOrder κ] in
theorem exists_txnAt_historyOf {txn : List (Mop κ Value)} (h : txn ∈ (sessionsOf logs).flatten) :
    ∃ i, TxnAt (historyOf logs) i txn := by
  obtain ⟨n, hn⟩ := List.getElem?_of_mem h
  refine ⟨n + 1, ?_⟩
  rw [txnAt_historyOf, flatten_numberAll, mem_numberFrom]
  exact ⟨Nat.succ_pos n, hn⟩

/-- A store only leaves behind what can be accounted for. -/
theorem accounted_of_run (h : RegisterLogs logs) (hfresh : Fresh init (historyOf logs))
    (hinit : Preloaded init logs)
    (hrun : LoggedRun init logs strongSession) : LogsAccounted logs strongSession Prod.snd := by
  obtain ⟨st, hreach, hrecords⟩ := hrun
  have hlog : CommitLog init (historyOf logs) (historiesOf logs) strongSession st.log :=
    ⟨hreach.inv.valid, hrecords, sessions_historiesOf, complete_historyOf, h.unique, hfresh⟩
  refine ⟨?_, ?_, ?_, hlog.constrained _⟩
  · intro txn htxn
    obtain ⟨i, ht⟩ := exists_txnAt_historyOf htxn
    obtain ⟨p, t, hp, rfl, rfl⟩ := hlog.exists_commit ht
    exact hlog.checkINT hp (h.logged _ htxn) (h.bounded _ htxn)
  · intro j k v hr hno
    obtain ⟨q, u, hq, rfl, hv⟩ := hlog.exists_reader hr
    obtain ⟨_, hk⟩ := hlog.not_written hv hno
    cases hd : initialValues logs with
    | none => exact .inl rfl
    | some d =>
      rw [hinit d hd k] at hk
      cases hg : d.get? k with
      | none =>
        rw [hg] at hk
        exact .inr (by rw [← hk]; rfl)
      | some w =>
        rw [hg] at hk
        obtain rfl : w = v := hk
        exact .inl (by simp [fromInitial, hg])
  · intro q m k hom p hp
    obtain ⟨_, _, _, _, _, hown⟩ := hlog.exists_omitting hom
    exact hown p hp

/-- What can be accounted for is what a run could have left behind. -/
theorem run_of_accounted (h : RegisterLogs logs)
    (hs : ∀ txn ∈ (sessionsOf logs).flatten, ∀ k v succ, .w k v succ ∈ txn → succ = true)
    (hstart : FromStart init (historyOf logs) (initialValues logs))
    (ha : LogsAccounted logs strongSession Prod.snd) :
    LoggedRun init logs strongSession := by
  obtain ⟨hconsistent, haccounted⟩ := ha
  obtain ⟨_, hordered⟩ := haccounted.ordered
  have hreplay : Replayable init (historyOf logs) (historiesOf logs) strongSession
      (initialValues logs) := by
    refine ⟨h.loggedHistory hconsistent, ?_, ?_, sessions_historiesOf, hstart,
      haccounted.ownUpserts, hordered⟩
    · intro i txn ht mop hm
      have hlogged := h.logged txn (mem_of_txnAt ht) mop hm
      cases mop with
      | r => trivial
      | w k v succ => exact hs txn (mem_of_txnAt ht) k v succ hm
      | range => exact ⟨hlogged.1, hlogged.2.1⟩
      | i | d | append => exact hlogged.elim
    · intro i txn ht
      exact h.bounded txn (mem_of_txnAt ht)
  exact hreplay.exists_run

variable [ToString κ] {ν : Type} [DecidableEq ν]

/-- No false alarm: whatever the interleaving of a run of the store, the algorithms
accept its logs. -/
theorem mainAllcases_accepts_run (o : SetOrder) (sv : Solvers) (logs : List (Log κ))
    (init : κ → Option Value)
    (strongSession wwOrder : Bool) (h : RegisterLogs logs) (hfresh : Fresh init (historyOf logs))
    (hinit : Preloaded init logs)
    (hrun : LoggedRun init logs strongSession) :
    ∃ enough, ∀ fuel, enough ≤ fuel → ∀ ALGO, Applicable logs wwOrder ALGO →
      mainAllcases fuel o sv ALGO
        (.json (logs.map Log.json) : LogDir κ ν) strongSession wwOrder false false =
        some (.ok true) := by
  obtain ⟨b, hb, hiff⟩ := algo4Json_iff o sv.monosat logs strongSession h
  obtain ⟨enough, hsame⟩ := applicable_eq_algo4Json (ν := ν) o sv strongSession wwOrder h
  refine ⟨enough, ?_⟩
  intro fuel hf ALGO hA
  rw [hsame fuel hf ALGO hA, hb, hiff.mpr (accounted_of_run h hfresh hinit hrun)]

section Example

def listedStart : Nat → Option Value := (Dict.empty.set 1 (.int 0) : Dict Nat Value).get?

def writer : Txn Nat (Mop Nat Value) (Dict Nat Value) :=
  ⟨1, 0, [.w 1 (.int 5) true], Dict.empty.set 1 (.int 5)⟩

def oldReader : Txn Nat (Mop Nat Value) (Dict Nat Value) :=
  ⟨2, 0, [.r 1 (.int 0) false], Dict.empty⟩

def newReader : Txn Nat (Mop Nat Value) (Dict Nat Value) :=
  ⟨3, 2, [.r 1 (.int 5) false, .range (some 0) (some 3) [⟨1, .int 5⟩] [] none], Dict.empty⟩

/-- The session order of the readers is all there is. -/
theorem prior_listedLogs {i j : Nat} (h : sessionPrior (historiesOf listedLogs) true i j) :
    i = 2 ∧ j = 3 := by
  have hall : ∀ txns ∈ historiesOf listedLogs,
    ∀ p ∈ txns.zip txns.tail, p.1.id = 2 ∧ p.2.id = 3 := by decide
  obtain ⟨_, txns, ht, p, hp, rfl, rfl⟩ := h
  exact hall txns ht p hp

/-- The writer and the first reader begin together. -/
theorem loggedRun_listedLogs : LoggedRun listedStart listedLogs true := by
  have hbegun : Reachable registers listedStart (sessionPrior (historiesOf listedLogs) true)
      ⟨[], [writer, oldReader]⟩ := by
    apply Reachable.begin (l := [writer, oldReader]) .refl (by decide)
    intro t ht
    simp only [List.mem_cons, List.not_mem_nil, or_false] at ht
    cases ht with
    | inl he =>
      subst he
      exact ⟨rfl, Nat.le_refl 0, .cons ⟨rfl, rfl⟩ .nil,
        fun u hu => absurd (prior_listedLogs hu).2 (by decide)⟩
    | inr he =>
      subst he
      exact ⟨rfl, Nat.le_refl 0, .cons ⟨rfl, rfl⟩ .nil,
        fun u hu => absurd (prior_listedLogs hu).2 (by decide)⟩
  have hwritten := hbegun.tail (Step.commit (l := []) (r := [oldReader]) nofun)
  have hread := hwritten.tail (Step.commit (l := []) (r := []) fun u hu k => .inr rfl)
  have hscanned : Reachable registers listedStart (sessionPrior (historiesOf listedLogs) true)
      ⟨[writer, oldReader], [newReader]⟩ := by
    apply Reachable.begin (l := [newReader]) hread (by decide)
    intro t ht
    rw [List.mem_singleton.mp ht]
    refine ⟨rfl, Nat.le_refl 2, .cons ⟨rfl, rfl⟩ (.cons ⟨?_, rfl⟩ .nil), ?_⟩
    · intro k v
      by_cases hk : k = 1
      · subst hk
        simp [seen, view, overwrite, registers, writer, oldReader, ownAfter, inBetween,
          newReader, eq_comm]
      · simp [seen, view, overwrite, registers, writer, oldReader, ownAfter, inBetween,
          newReader, listedStart, Dict.get?_set, hk]
    · intro u hu
      exact ⟨oldReader, List.mem_cons_of_mem writer List.mem_cons_self,
        (prior_listedLogs hu).1.symm⟩
  refine ⟨_, hscanned.tail (Step.commit (l := []) (r := []) fun u hu k => .inr rfl), ?_⟩
  intro i txn
  constructor
  · revert i txn
    exact forall_txnAt.mpr (by decide)
  · intro h
    obtain ⟨t, ht, rfl, rfl⟩ := h
    have hall : ∀ t ∈ [writer, oldReader, newReader],
        0 < t.name ∧ (historyOf listedLogs)[t.name]? = some ⟨t.name, some t.ops⟩ := by
      decide
    obtain ⟨h0, he⟩ := hall t ht
    exact ⟨h0, _, he, rfl⟩

theorem mem_listedLogs :
    ∀ txn ∈ (sessionsOf listedLogs).flatten, ∀ mop ∈ txn, mop = .w 1 (.int 5) true ∨
    mop = .r 1 (.int 0) false ∨ mop = .r 1 (.int 5) false ∨
    mop = .range (some 0) (some 3) [⟨1, .int 5⟩] [] none := by
  decide

theorem fresh_listedLogs : Fresh listedStart (historyOf listedLogs) := by
  intro i txn ht k v succ hw
  have he := mem_listedLogs txn (mem_of_txnAt ht) _ hw
  simp only [Mop.w.injEq, reduceCtorEq, or_false] at he
  obtain ⟨rfl, rfl, _⟩ := he
  exact ⟨by decide, by decide⟩

theorem mainAllcases_accepts_run_listed :
    RegisterLogs listedLogs ∧ Fresh listedStart (historyOf listedLogs) ∧
    Preloaded listedStart listedLogs ∧ LoggedRun listedStart listedLogs true ∧
    ∃ enough, ∀ fuel, enough ≤ fuel → ∀ ALGO, Applicable listedLogs false ALGO →
      mainAllcases fuel .stored .exact ALGO
        (.json (listedLogs.map Log.json) : LogDir Nat Nat) true false false false =
        some (.ok true) :=
  have hinit : Preloaded listedStart listedLogs := by
    intro d hd k
    cases hd
    rfl
  ⟨registers_listedLogs, fresh_listedLogs, hinit, loggedRun_listedLogs,
    mainAllcases_accepts_run .stored .exact listedLogs
    listedStart true false registers_listedLogs fresh_listedLogs hinit loggedRun_listedLogs⟩

end Example

/-- Nothing missed: what the algorithms accept was left behind by some run of the store,
if all writes succeeded and what was seen first is the initial state. -/
theorem mainAllcases_finds_run (o : SetOrder) (sv : Solvers) (logs : List (Log κ))
    (init : κ → Option Value) (strongSession wwOrder : Bool) (h : RegisterLogs logs)
    (hs : ∀ txn ∈ (sessionsOf logs).flatten, ∀ k v succ, .w k v succ ∈ txn → succ = true)
    (hstart : FromStart init (historyOf logs) (initialValues logs)) :
    ∃ enough, ∀ fuel, enough ≤ fuel →
      ∀ ALGO, Applicable logs wwOrder ALGO → ∃ b,
        mainAllcases fuel o sv ALGO (.json (logs.map Log.json) : LogDir κ ν) strongSession wwOrder
          false false = some (.ok b) ∧
          (b = true → LoggedRun init logs strongSession) := by
  obtain ⟨b, hb, hiff⟩ := algo4Json_iff o sv.monosat logs strongSession h
  obtain ⟨enough, hsame⟩ := applicable_eq_algo4Json (ν := ν) o sv strongSession wwOrder h
  refine ⟨enough, ?_⟩
  intro fuel hf ALGO hA
  refine ⟨b, ?_, fun hyes => run_of_accounted h hs hstart (hiff.mp hyes)⟩
  rw [hsame fuel hf ALGO hA, hb]

section Example

theorem range_listedLogs {q m : Nat} {k1 k2 : Option Nat} {rs dead : List (Record Nat Value)}
    (h : RangeAt (historyOf listedLogs) q m k1 k2 rs dead) :
    k1 = some 0 ∧ k2 = some 3 ∧ rs = [⟨1, .int 5⟩] ∧ dead = [] := by
  obtain ⟨txn, fin, ht, hm⟩ := h
  have he := mem_listedLogs txn (mem_of_txnAt ht) _ (List.mem_of_getElem? hm)
  simp only [Mop.range.injEq, reduceCtorEq, false_or] at he
  exact ⟨he.1, he.2.1, he.2.2.1, he.2.2.2.1⟩

theorem fromStart_listedLogs : FromStart listedStart (historyOf listedLogs)
    (initialValues listedLogs) where
  reads j k v hr hno := by
    have hall : ∀ i txn, TxnAt (historyOf listedLogs) i txn →
        ∀ reads ∈ (extReadsFn txn).toOption, ∀ e ∈ reads.entries,
        e = (1, .int 0) ∨ e = (1, .int 5) := forall_txnAt.mpr (by decide)
    obtain ⟨txn, reads, ht, hreads, hv⟩ := hr
    have he := hall j txn ht reads (by rw [hreads]; rfl) _ ((Dict.mem_entries reads k v).mpr hv)
    cases he with
    | inl he =>
      cases he
      exact ⟨rfl, rfl⟩
    | inr he =>
      cases he
      exact absurd ⟨_, _, ⟨by decide, _, rfl, rfl⟩, rfl, rfl⟩ (hno 1)
  nulls q m k1 k2 rs dead hrange item hi hnull := by
    obtain ⟨rfl, rfl, rfl, rfl⟩ := range_listedLogs hrange
    rw [List.append_nil, List.mem_singleton] at hi
    rw [hi] at hnull
    exact absurd hnull (by decide)
  omitted q m k hom := by
    obtain ⟨k1, k2, rs, dead, hrange, _, hk, _⟩ := hom
    obtain ⟨rfl, rfl, rfl, rfl⟩ := range_listedLogs hrange
    exact Dict.get?_set_other _ _ _ _ (List.ne_of_not_mem_cons hk)

theorem mainAllcases_finds_run_listed : RegisterLogs listedLogs ∧
    (∀ txn ∈ (sessionsOf listedLogs).flatten, ∀ k v succ, .w k v succ ∈ txn → succ = true) ∧
    FromStart listedStart (historyOf listedLogs) (initialValues listedLogs) ∧
    ∃ enough, ∀ fuel, enough ≤ fuel → ∀ ALGO, Applicable listedLogs false ALGO → ∃ b,
      mainAllcases fuel .stored .exact ALGO
        (.json (listedLogs.map Log.json) : LogDir Nat Nat) true false false false =
        some (.ok b) ∧ (b = true → LoggedRun listedStart listedLogs true) :=
  have hs : ∀ txn ∈ (sessionsOf listedLogs).flatten,
      ∀ k v succ, .w k v succ ∈ txn → succ = true := by
    intro txn ht k v succ hw
    have he := mem_listedLogs txn ht _ hw
    simp only [Mop.w.injEq, reduceCtorEq, or_false] at he
    exact he.2.2
  ⟨registers_listedLogs, hs, fromStart_listedLogs,
    mainAllcases_finds_run .stored .exact listedLogs listedStart true false
    registers_listedLogs hs fromStart_listedLogs⟩

end Example

end Verdicts

end Viper
