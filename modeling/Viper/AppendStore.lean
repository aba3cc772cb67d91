import Viper.AppendDecision
import Viper.AppendIsolation
import Viper.Replay
import Viper.StoreEvents

/-!
# Logs of a store of lists

The clients of the store append to lists and read them whole. An append takes the
list that is seen and writes a longer one, so that the lists in the store grow as
the commits follow one another. Algorithm 8 accepts what every run leaves behind.
-/
namespace Viper

open Py Chains SnapshotStore Versions

namespace Append

variable {κ ν : Type} [LinearOrder κ]

/-- The list that is seen under a key. -/
def seenList (S : κ → Option (List ν)) (own : Dict κ (List ν)) (k : κ) : List ν :=
  (seen S own k).getD []

def LogMop.Shows (S : κ → Option (List ν)) (own : Dict κ (List ν)) : LogMop κ ν → Prop
  | .append _ _ => True
  | .r k v => v.getD [] = seenList S own k

def ownAfter (S : κ → Option (List ν)) (own : Dict κ (List ν)) : LogMop κ ν → Dict κ (List ν)
  | .append k x => own.set k (seenList S own k ++ [x])
  | .r _ _ => own

/-- The clients keep the lists that they have appended to. -/
def lists : Client κ (List ν) (LogMop κ ν) (Dict κ (List ν)) where
  start := Dict.empty
  step S own mop own' := mop.Shows S own ∧ own' = ownAfter S own mop
  writes own k := own.get? k

section Transactions

variable {S : κ → Option (List ν)} {own own' : Dict κ (List ν)} {ops : List (LogMop κ ν)}

theorem seenList_set (S : κ → Option (List ν)) (own : Dict κ (List ν)) (k x : κ) (xs : List ν) :
    seenList S (own.set k xs) x = if x = k then xs else seenList S own x := by
  rw [seenList, seenList, seen_set]
  split <;> rfl

/-- A run appends to what it has seen. -/
theorem seenList_of_runs (h : Runs lists S own ops own') (k : κ) :
    seenList S own' k = seenList S own k ++ appendsTo k ops := by
  induction h with
  | nil => exact (List.append_nil _).symm
  | @cons own _ _ mop ops hstep _ ih =>
    obtain ⟨_, rfl⟩ := hstep
    rw [ih]
    cases mop with
    | r k' v => rfl
    | append k' x =>
      rw [ownAfter, seenList_set]
      by_cases hk : k' = k
      · simp [appendsTo, hk]
      · simp [appendsTo, hk, Ne.symm hk]

theorem written_of_runs (h : Runs lists S own ops own') (k : κ) :
    own'.get? k = none ↔ own.get? k = none ∧ appendsTo k ops = [] := by
  induction h with
  | nil => simp [appendsTo]
  | @cons own _ _ mop ops hstep _ ih =>
    obtain ⟨_, rfl⟩ := hstep
    rw [ih]
    cases mop with
    | r k' v => rfl
    | append k' x =>
      rw [ownAfter, Dict.get?_set]
      by_cases hk : k' = k
      · simp [appendsTo, hk]
      · simp [appendsTo, hk, Ne.symm hk]

/-- An external read shows the snapshot. -/
theorem externalRead_of_runs (h : Runs lists S own ops own') {k : κ} (hown : own.get? k = none)
    {xs : List ν} (hr : externalRead ops k = some xs) : xs = (S k).getD [] := by
  induction h with
  | nil => cases hr
  | @cons own _ _ mop ops hstep _ ih =>
    obtain ⟨hshows, rfl⟩ := hstep
    rw [externalRead_cons] at hr
    split at hr
    · rename_i hk
      cases mop with
      | append k' x =>
        obtain rfl : k' = k := hk
        simp [externalRead, LogMop.key] at hr
      | r k' v =>
        obtain rfl : k' = k := hk
        simp only [externalRead, LogMop.key, List.find?_cons, decide_true, Option.some.injEq] at hr
        rw [← hr, hshows, seenList, seen, hown]
        rfl
    · rename_i hk
      apply ih _ hr
      cases mop with
      | append k' x => exact (Dict.get?_set_other _ _ _ _ (Ne.symm hk)).trans hown
      | r k' v => exact hown

/-- What a transaction commits under a key it appends to. -/
theorem state_of_runs (h : Runs lists S Dict.empty ops own') {k : κ} (hk : appendsTo k ops ≠ []) :
    own'.get? k = some ((S k).getD [] ++ appendsTo k ops) := by
  cases hs : own'.get? k with
  | none => exact absurd ((written_of_runs h k).mp hs).2 hk
  | some xs =>
    have hseen := seenList_of_runs h k
    rw [seenList, seen, hs] at hseen
    exact congrArg some hseen

end Transactions

section Commits

variable {lines : List (LogTxn κ ν)} {strongSession : Bool}
  {log : List (Txn Nat (LogMop κ ν) (Dict κ (List ν)))}

/-- A transaction waits for those before it in the log of its process, if the order of
sessions counts. -/
def processPrior (lines : List (LogTxn κ ν)) (strongSession : Bool) (i j : Nat) : Prop :=
  strongSession = true ∧ Precedes lines i j

/-- The lines are the committed transactions. -/
structure Recorded (lines : List (LogTxn κ ν))
    (log : List (Txn Nat (LogMop κ ν) (Dict κ (List ν)))) : Prop where
  committed : ∀ i, 0 < i → i ≤ lines.length → ∃ t ∈ log, t.name = i
  logged : ∀ t ∈ log, 0 < t.name ∧ t.name ≤ lines.length ∧ t.ops = opsOf lines t.name

/-- The log is left behind by a run of the store, from no lists at all. -/
def ListRun (lines : List (LogTxn κ ν)) (strongSession : Bool) : Prop :=
  ∃ st, Reachable lists (fun _ => none) (processPrior lines strongSession) st ∧
    Recorded lines st.log

variable (hv : Valid lists (fun _ => none) (processPrior lines strongSession) log)
include hv

/-- The store holds the appends of the commits, one after the other. -/
theorem view_lists (k : κ) (n : Nat) (hn : n ≤ log.length) :
    (view lists (fun _ => none) (log.take n) k).getD [] =
      (log.take n).flatMap fun t => appendsTo k t.ops := by
  induction n with
  | zero => rfl
  | succ n ih =>
    have ih := ih (Nat.le_of_succ_le hn)
    obtain ⟨t, ht⟩ : ∃ t, log[n]? = some t := ⟨_, List.getElem?_eq_getElem hn⟩
    have htake : log.take (n + 1) = log.take n ++ [t] := by
      rw [List.take_add_one, ht]
      rfl
    have hruns := (hv.begun t (List.mem_of_getElem? ht)).runs
    rw [htake, view_append, List.flatMap_append, List.flatMap_singleton]
    by_cases hk : appendsTo k t.ops = []
    · have hnone : t.state.get? k = none := (written_of_runs hruns k).mpr ⟨Dict.get?_empty k, hk⟩
      rw [view_untouched fun u hu => List.mem_singleton.mp hu ▸ hnone, ih, hk, List.append_nil]
    · have hstate := state_of_runs hruns hk
      -- nobody has appended to the list since the snapshot
      have hsame : view lists (fun _ => none) (log.take n) k =
          view lists (fun _ => none) (log.take t.snapshot) k := by
        have hle := hv.before n t ht
        have hsplit : log.take n = log.take t.snapshot ++ (log.take n).drop t.snapshot := by
          have hdrop := List.take_append_drop t.snapshot (log.take n)
          rw [List.take_take, Nat.min_eq_left hle] at hdrop
          exact hdrop.symm
        rw [hsplit, view_append]
        apply view_untouched
        intro u hu
        obtain ⟨m, hm⟩ := List.getElem?_of_mem hu
        rw [List.getElem?_drop] at hm
        have hlt := (List.getElem?_eq_some_iff.mp hm).1
        rw [List.length_take] at hlt
        have hmn : t.snapshot + m < n := Nat.lt_of_lt_of_le hlt (Nat.min_le_left _ _)
        rw [List.getElem?_take_of_lt hmn] at hm
        cases hv.apart n _ t u ht hm (Nat.le_add_right _ _) hmn k with
        | inl hno => exact hno
        | inr hno => cases hstate.symm.trans hno
      have hlast : view lists (view lists (fun _ => none) (log.take n)) [t] k =
          some ((view lists (fun _ => none) (log.take t.snapshot) k).getD [] ++
            appendsTo k t.ops) :=
        view_last (l := []) (r := []) hstate nofun
      rw [hlast, ← hsame, ih]
      rfl

variable (hr : Recorded lines log)
include hr

omit hv [LinearOrder κ] in
theorem exists_position {i : Nat} (h0 : 0 < i) (hi : i ≤ lines.length) :
    ∃ (p : Nat) (t : Txn Nat (LogMop κ ν) (Dict κ (List ν))),
      log[p]? = some t ∧ t.name = i ∧ t.ops = opsOf lines i := by
  obtain ⟨t, ht, rfl⟩ := hr.committed i h0 hi
  obtain ⟨p, hp⟩ := List.getElem?_of_mem ht
  exact ⟨p, t, hp, rfl, (hr.logged t ht).2.2⟩

omit hv [LinearOrder κ] in
/-- The commits before a begin, by their order. -/
theorem committedBefore_eq [LinearOrder Event] (hf : Follows log) {q : Nat}
    {u : Txn Nat (LogMop κ ν) (Dict κ (List ν))}
    (hu : log[q]? = some u) : committedBefore lines.length u.name =
    (log.take u.snapshot).map Txn.name := by
  have hsorted : ((log.take u.snapshot).map Txn.name).Pairwise
      fun i i' => Event.c i < Event.c i' := by
    rw [List.pairwise_map]
    apply List.Pairwise.sublist (List.take_sublist u.snapshot log)
    rw [List.pairwise_iff_getElem]
    intro m n hm hn hlt
    exact hf.commits (List.getElem?_eq_getElem hm) (List.getElem?_eq_getElem hn) hlt
  apply eq_of_sorted (fun _ _ => lt_asymm) (sorted_committedBefore lines.length u.name) hsorted
  intro i
  rw [mem_committedBefore, List.mem_map]
  constructor
  · intro h
    obtain ⟨⟨h0, hi⟩, hlt⟩ := h
    obtain ⟨p, t, hp, rfl, _⟩ := exists_position hr h0 hi
    exact ⟨t, List.mem_of_getElem? ((List.getElem?_take_of_lt (hf.lt_snapshot hp hu hlt)).trans hp),
      rfl⟩
  · intro h
    obtain ⟨t, ht, rfl⟩ := h
    obtain ⟨p, hp⟩ := List.getElem?_of_mem ht
    have hlen := (List.getElem?_eq_some_iff.mp hp).1
    rw [List.length_take] at hlen
    have hlt : p < u.snapshot := Nat.lt_of_lt_of_le hlen (Nat.min_le_left _ _)
    rw [List.getElem?_take_of_lt hlt] at hp
    obtain ⟨h0, hi, _⟩ := hr.logged t (List.mem_of_getElem? hp)
    exact ⟨⟨h0, hi⟩, hf.seen hp hu hlt⟩

/-- The log of a run is snapshot isolated. -/
theorem isolated_of_run : ∃ _ : LinearOrder Event, SnapshotIsolated lines strongSession := by
  obtain ⟨hlin, hf⟩ := exists_follows hv.names fun t ht => (hr.logged t ht).1
  have hpos : ∀ {i : Nat} {m : LogMop κ ν}, m ∈ opsOf lines i →
      ∃ (p : Nat) (t : Txn Nat (LogMop κ ν) (Dict κ (List ν))),
      log[p]? = some t ∧ t.name = i ∧ t.ops = opsOf lines i :=
    fun hm => exists_position hr (lt_of_op hm).1 (lt_of_op hm).2
  refine ⟨hlin, ?_, ?_, ?_, ?_, ?_⟩
  · intro i hi
    cases i with
    | zero => exact hf.zero
    | succ i =>
      obtain ⟨p, t, hp, hname, _⟩ := exists_position hr (i := i + 1) (Nat.succ_pos i) hi
      rw [← hname]
      exact hf.begins hv hp
  · intro i h0 hi
    obtain ⟨p, t, hp, rfl, _⟩ := exists_position hr h0 hi
    exact hf.first t (List.mem_of_getElem? hp)
  · intro hs i j x hij hi hj
    obtain ⟨h0, hle⟩ := lt_of_process hj
    obtain ⟨q, u, hq, rfl, _⟩ := exists_position hr h0 hle
    exact hf.waits hv hq ⟨hs, hij, x, hi, hj⟩
  · intro j k xs hread
    obtain ⟨h0, hle⟩ := lt_of_reads hread
    obtain ⟨q, u, hq, rfl, hops⟩ := exists_position hr h0 hle
    have hu := hv.begun u (List.mem_of_getElem? hq)
    rw [← hops] at hread
    rw [externalRead_of_runs hu.runs (Dict.get?_empty k) hread,
      view_lists hv k u.snapshot hu.le, snapshot, committedBefore_eq hr hf hq, List.flatMap_map]
    apply List.flatMap_congr
    intro t ht
    rw [(hr.logged t (List.mem_of_mem_take ht)).2.2]
  · intro k i j hne hi hj
    obtain ⟨x, hx⟩ := writes_iff_appendsTo.mpr hi
    obtain ⟨y, hy⟩ := writes_iff_appendsTo.mpr hj
    obtain ⟨p, t, hp, rfl, hops⟩ := hpos hx
    obtain ⟨q, u, hq, rfl, hops'⟩ := hpos hy
    have hwrites : ∀ {p : Nat} {t : Txn Nat (LogMop κ ν) (Dict κ (List ν))}, log[p]? = some t →
        t.ops = opsOf lines t.name →
        appendsTo k (opsOf lines t.name) ≠ [] → lists.writes t.state k ≠ none := by
      intro p t hp hops happ
      rw [← hops] at happ
      have hstate := state_of_runs (hv.begun t (List.mem_of_getElem? hp)).runs happ
      exact Option.ne_none_iff_exists'.mpr ⟨_, hstate⟩
    exact hf.apart hv hp hq hne (hwrites hp hops hi) (hwrites hq hops' hj)

end Commits

section Main

variable [DecidableEq ν] [ToString κ]

/-- The encoding of an isolated log is satisfied by its order. -/
theorem mainAlgo35_of_isolated (o : SetOrder) (monosat : GraphSat.Oracle)
    {lines : List (LogTxn κ ν)} {strongSession : Bool}
    (hU : UniqueAppends lines)
    (hI : ∃ _ : LinearOrder Event, SnapshotIsolated lines strongSession) :
    mainAlgo35 (constructGraphFromLog o lines strongSession) (verdictOf o monosat) = .ok true := by
  obtain ⟨_, h⟩ := hI
  obtain ⟨g, con, chains, readfrom, hok, he⟩ := h.encoded hU o
  have hsat : GraphSat.Satisfiable (MonoBCPolyGraphCheckerOptimized.check o g con) := by
    refine he.satisfiable_iff.mpr
      ⟨_, he.ordered_iff.mpr ⟨h.begins, fun e hk => h.holds_known hU o hk, ?_⟩⟩
    exact chainLegal_of_adjacent he.chaining h.begins_of_writes (h.legal hU)
      (fun k a b _ _ hab => h.adjacent hU hab)
  exact mainAlgo35_eq_true.mpr ⟨g, con, hok, (monosat.solve_iff _).mpr hsat⟩

/-- No false alarm: algorithm 8 accepts the log of every run of the store in which no
element is appended twice to a key. -/
theorem algo8_accepts_run (o : SetOrder) (monosat : GraphSat.Oracle) (lines : List (LogTxn κ ν))
    (strongSession : Bool) (hU : UniqueAppends lines) (hrun : ListRun lines strongSession) :
    ∃ enough, ∀ fuel, enough ≤ fuel →
      algo8 fuel o monosat lines strongSession = some (.ok true) := by
  obtain ⟨st, hreach, hr⟩ := hrun
  obtain ⟨enough, hfive⟩ := algo8_eq o monosat lines strongSession
  refine ⟨enough, ?_⟩
  intro fuel hf
  rw [hfive fuel hf, mainAlgo35_of_isolated o monosat hU (isolated_of_run hreach.inv.valid hr)]

section Example

/-- Two transactions that append side by side, and a reader of both keys in the
session of the first. -/
def sideBySide : List (LogTxn Nat Nat) :=
  [⟨1, [.append 1 10]⟩, ⟨2, [.r 1 none, .append 2 20]⟩, ⟨1, [.r 1 (some [10]), .r 2 (some [20])]⟩]

def first : Txn Nat (LogMop Nat Nat) (Dict Nat (List Nat)) :=
  ⟨1, 0, [.append 1 10], Dict.empty.set 1 [10]⟩

def second : Txn Nat (LogMop Nat Nat) (Dict Nat (List Nat)) :=
  ⟨2, 0, [.r 1 none, .append 2 20], Dict.empty.set 2 [20]⟩

def third : Txn Nat (LogMop Nat Nat) (Dict Nat (List Nat)) :=
  ⟨3, 2, [.r 1 (some [10]), .r 2 (some [20])], Dict.empty⟩

theorem unique_sideBySide : UniqueAppends sideBySide := by
  intro k
  by_cases h₁ : 1 = k
  · subst h₁
    decide
  · by_cases h₂ : 2 = k
    · subst h₂
      decide
    · simp [sideBySide, appendsTo, h₁, h₂]

theorem prior_sideBySide {i j : Nat} (h : processPrior sideBySide true i j) : i = 1 ∧ j = 3 := by
  have hall : ∀ j < 4,
      ∀ i < j, processOf sideBySide i ≠ none ∧ processOf sideBySide i = processOf sideBySide j →
      (i, j) = (1, 3) := by decide
  obtain ⟨_, hlt, p, hi, hj⟩ := h
  have he := hall j (Nat.lt_succ_of_le (lt_of_process hj).2) i hlt ⟨by simp [hi], hi.trans hj.symm⟩
  exact Prod.mk.inj he

theorem listRun_sideBySide : ListRun sideBySide true := by
  have hbegun : Reachable lists (fun _ => none) (processPrior sideBySide true)
      ⟨[], [first, second]⟩ := by
    apply Reachable.begin (l := [first, second]) .refl (by decide)
    intro t ht
    simp only [List.mem_cons, List.not_mem_nil, or_false] at ht
    cases ht with
    | inl he =>
      subst he
      exact ⟨rfl, Nat.le_refl 0, .cons ⟨trivial, rfl⟩ .nil,
        fun u hu => absurd (prior_sideBySide hu).2 (by decide)⟩
    | inr he =>
      subst he
      exact ⟨rfl, Nat.le_refl 0, .cons ⟨rfl, rfl⟩ (.cons ⟨trivial, rfl⟩ .nil),
        fun u hu => absurd (prior_sideBySide hu).2 (by decide)⟩
  have hfirst := hbegun.tail (Step.commit (l := []) (r := [second]) nofun)
  have hsecond := hfirst.tail (Step.commit (l := []) (r := []) (t := second) (by
    intro u hu k
    rw [List.mem_singleton.mp hu]
    by_cases hk : k = 1
    · exact .inr (by rw [hk]; rfl)
    · exact .inl (Dict.get?_set_other _ _ _ _ hk)))
  have hthird : Reachable lists (fun _ => none) (processPrior sideBySide true)
      ⟨[first, second], [third]⟩ := by
    apply Reachable.begin (l := [third]) hsecond (by decide)
    intro t ht
    rw [List.mem_singleton.mp ht]
    refine ⟨rfl, Nat.le_refl 2, .cons ⟨rfl, rfl⟩ (.cons ⟨rfl, rfl⟩ .nil), ?_⟩
    intro u hu
    exact ⟨first, List.mem_cons_self, (prior_sideBySide hu).1.symm⟩
  refine ⟨_, hthird.tail (Step.commit (l := []) (r := []) fun u hu k => .inr rfl), ?_, ?_⟩
  · have hall : ∀ i < 4, 0 < i → ∃ t ∈ [first, second, third], t.name = i := by decide
    exact fun i h0 hi => hall i (Nat.lt_succ_of_le hi) h0
  · have hall : ∀ t ∈ [first, second, third],
      0 < t.name ∧ t.name ≤ 3 ∧ t.ops = opsOf sideBySide t.name := by decide
    exact hall

theorem algo8_accepts_run_sideBySide : UniqueAppends sideBySide ∧ ListRun sideBySide true ∧
    ∃ enough, ∀ fuel, enough ≤ fuel → algo8 fuel .stored .exact sideBySide true = some (.ok true) :=
  ⟨unique_sideBySide, listRun_sideBySide,
    algo8_accepts_run .stored .exact sideBySide true unique_sideBySide listRun_sideBySide⟩

end Example

end Main

end Append

end Viper
