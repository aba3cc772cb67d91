import Viper.AppendStore

/-!
# Runs behind the logs of lists

Algorithm 8 accepts logs that no store of lists leaves behind: it does not compare
the order in which two keys show two appenders, the elements of one transaction
among themselves, or the reads behind another operation on their key. Where the log
leaves no doubt about these, what is accepted is the log of a run.
-/
namespace Viper

open Py Chains SnapshotStore Versions

namespace Append

variable {κ ν : Type} [LinearOrder κ]

/-- What a log shows by itself: elements are new, whoever appends behind an element
has read it, lists show the appends of a transaction together and nothing twice, and
a transaction that reads a key has read it first. -/
structure Traceable (lines : List (LogTxn κ ν)) : Prop where
  unique : UniqueAppends lines
  extended : ∀ k a b, Observed lines k a b → ReadsFrom lines k a b
  once : ∀ j k xs, Reads lines j k xs → xs.Nodup
  whole : ∀ i j k xs x, Reads lines j k xs → Appends lines i k x → x ∈ xs →
    appendsTo k (opsOf lines i) <:+: xs
  internal : ∀ i k v m, (opsOf lines i)[m]? = some (.r k v) →
    ∃ xs, Reads lines i k xs ∧ v.getD [] = xs ++ appendsTo k ((opsOf lines i).take m)

section Elements

variable {lines : List (LogTxn κ ν)} {k : κ}

theorem UniqueAppends.nodup (hU : UniqueAppends lines) (k : κ) (i : Nat) :
    (appendsTo k (opsOf lines i)).Nodup := by
  cases i with
  | zero => exact List.nodup_nil
  | succ i =>
    rw [opsOf]
    cases hl : lines[i]? with
    | none => exact List.nodup_nil
    | some line => exact (List.nodup_flatMap.mp (hU k)).1 line (List.mem_of_getElem? hl)

theorem appends_of_getElem? {i m : Nat} {x : ν} (h : (appendsTo k (opsOf lines i))[m]? = some x) :
    Appends lines i k x :=
  (mem_appendsTo k _ x).mp (List.mem_of_getElem? h)

/-- Two places of a list without repetitions, in a part of it. -/
theorem places_of_infix {l xs : List ν} (hl : l <:+: xs) (hxs : xs.Nodup) {p q : Nat} {x y : ν}
    (hp : xs[p]? = some x)
    (hq : xs[q]? = some y) (hlt : p < q) (hx : x ∈ l)
    (hy : y ∈ l) : ∃ m n : Nat, m < n ∧ l[m]? = some x ∧ l[n]? = some y := by
  obtain ⟨l₁, l₂, rfl⟩ := hl
  have hplace : ∀ {m : Nat} {z : ν}, l[m]? = some z → (l₁ ++ l ++ l₂)[l₁.length + m]? = some z := by
    intro m z hm
    have hlen := (List.getElem?_eq_some_iff.mp hm).1
    rw [List.append_assoc, List.getElem?_append_right (Nat.le_add_right _ _),
      Nat.add_sub_cancel_left, List.getElem?_append_left hlen]
    exact hm
  obtain ⟨m, hm⟩ := List.getElem?_of_mem hx
  obtain ⟨n, hn⟩ := List.getElem?_of_mem hy
  have hpm : p = l₁.length + m :=
    (List.getElem?_inj (List.getElem?_eq_some_iff.mp hp).1 hxs).mp (hp.trans (hplace hm).symm)
  have hqn : q = l₁.length + n :=
    (List.getElem?_inj (List.getElem?_eq_some_iff.mp hq).1 hxs).mp (hq.trans (hplace hn).symm)
  exact ⟨m, n, by omega, hm, hn⟩

variable [LinearOrder Event]

/-- Element `x` was committed before `y`, or appended before it by the same transaction. -/
def ElementBefore (lines : List (LogTxn κ ν)) (k : κ) (x y : ν) : Prop :=
  (∃ a b, Appends lines a k x ∧ Appends lines b k y ∧ Event.c a < Event.c b) ∨
  ∃ a m n : Nat, m < n ∧ (appendsTo k (opsOf lines a))[m]? = some x ∧
  (appendsTo k (opsOf lines a))[n]? = some y

theorem ElementBefore.asymm (hU : UniqueAppends lines) {x y : ν} (h : ElementBefore lines k x y) :
    ¬ ElementBefore lines k y x := by
  intro h'
  cases h with
  | inl h =>
    obtain ⟨a, b, hx, hy, hlt⟩ := h
    cases h' with
    | inl h' =>
      obtain ⟨a', b', hy', hx', hlt'⟩ := h'
      obtain rfl := hU.appender hx hx'
      obtain rfl := hU.appender hy hy'
      exact lt_asymm hlt hlt'
    | inr h' =>
      obtain ⟨c, _, _, _, hm, hn⟩ := h'
      obtain rfl := hU.appender hx (appends_of_getElem? hn)
      obtain rfl := hU.appender hy (appends_of_getElem? hm)
      exact lt_irrefl _ hlt
  | inr h =>
    obtain ⟨c, m, n, hmn, hm, hn⟩ := h
    cases h' with
    | inl h' =>
      obtain ⟨a', b', hy', hx', hlt'⟩ := h'
      obtain rfl := hU.appender hx' (appends_of_getElem? hm)
      obtain rfl := hU.appender hy' (appends_of_getElem? hn)
      exact lt_irrefl _ hlt'
    | inr h' =>
      obtain ⟨c', m', n', hmn', hm', hn'⟩ := h'
      obtain rfl := hU.appender (appends_of_getElem? hm) (appends_of_getElem? hn')
      have hnodup := hU.nodup k c
      have hmn'' :=
        (List.getElem?_inj (List.getElem?_eq_some_iff.mp hm).1 hnodup).mp (hm.trans hn'.symm)
      have hnm'' :=
        (List.getElem?_inj (List.getElem?_eq_some_iff.mp hn).1 hnodup).mp (hn.trans hm'.symm)
      omega

theorem mem_snapshot {j : Nat} {x : ν} :
    x ∈ snapshot lines j k ↔ ∃ i, Appends lines i k x ∧ Event.c i < Event.s j := by
  simp only [snapshot, List.mem_flatMap, mem_committedBefore, mem_appendsTo]
  constructor
  · intro h
    obtain ⟨i, ⟨_, hlt⟩, hx⟩ := h
    exact ⟨i, hx, hlt⟩
  · intro h
    obtain ⟨i, hx, hlt⟩ := h
    exact ⟨i, ⟨Appends.lt hx, hlt⟩, hx⟩

theorem sorted_snapshot (lines : List (LogTxn κ ν)) (j : Nat) (k : κ) :
    (snapshot lines j k).Pairwise (ElementBefore lines k) := by
  rw [snapshot, List.pairwise_flatMap]
  constructor
  · intro i _
    rw [List.pairwise_iff_getElem]
    intro m n hm hn hlt
    exact .inr ⟨i, m, n, hlt, List.getElem?_eq_getElem hm, List.getElem?_eq_getElem hn⟩
  · apply (sorted_committedBefore lines.length j).imp
    intro a b hlt x hx y hy
    exact .inl ⟨a, b, (mem_appendsTo k _ x).mp hx, (mem_appendsTo k _ y).mp hy, hlt⟩

end Elements

section Reads

variable [LinearOrder Event] {lines : List (LogTxn κ ν)} {strongSession : Bool}
  (h : Traceable lines)
  (hex : Explanation lines strongSession) (hS : Sourced lines) {j : Nat} {k : κ} {xs : List ν}
  (hr : Reads lines j k xs)
include h hex

/-- Successors have read what they extend, so that rows of successors follow one another. -/
theorem Traceable.legal {chains : κ → List (List Nat)}
    (hC : Chaining (workload lines) (Successor lines) chains) :
    Legal (workload lines) Event.s Event.c := by
  apply legal_of_chainLegal hC
  · intro k x hx
    exact hex.begins x hx.lt.2
  · intro k a b hab
    cases hab with
    | inl hab => exact hab.2
    | inr hab => exact h.extended k a b hab
  · exact (chainLegal_iff_rows hC).mpr
      ⟨hex.reads, fun k a b r hs hr hne => hex.missed r b (.extended hs hr hne), hex.rows⟩
  · intro k i j hr
    exact hr.writes

include hS hr

/-- The appenders in a list have committed one after the other. -/
theorem Traceable.appenders_read :
    xs.Pairwise
      fun x y => ∃ a b, Appends lines a k x ∧ Appends lines b k y ∧ Event.c a ≤ Event.c b := by
  let r : ν → ν → Prop :=
    fun x y => ∃ a b, Appends lines a k x ∧ Appends lines b k y ∧ Event.c a ≤ Event.c b
  have : Trans r r r := by
    constructor
    intro x y z hxy hyz
    obtain ⟨a, b, hx, hy, hab⟩ := hxy
    obtain ⟨b', c, hy', hz, hbc⟩ := hyz
    obtain rfl := h.unique.appender hy hy'
    exact ⟨a, c, hx, hz, hab.trans hbc⟩
  have hchain : xs.IsChain r := by
    rw [List.isChain_iff_forall_rel_of_append_cons_cons]
    intro x y l₁ l₂ he
    have hlinked : Linked xs x y := ⟨l₁, l₂, he⟩
    obtain ⟨a, ha⟩ := hS j k xs x hr hlinked.mem.1
    obtain ⟨b, hb⟩ := hS j k xs y hr hlinked.mem.2
    have hx := (ha a).mpr rfl
    have hy := (hb b).mpr rfl
    refine ⟨a, b, hx, hy, ?_⟩
    by_cases hab : a = b
    · exact le_of_eq (congrArg Event.c hab)
    · have hlt := hex.reads k a b (h.extended k a b ⟨j, xs, x, y, hr, hlinked, hx, hy, hab⟩)
      exact le_of_lt (hlt.trans (hex.begins b hy.lt.2))
  exact List.isChain_iff_pairwise.mp hchain

/-- A reader begins after the commits that it shows, and before all others. -/
theorem Traceable.seen_iff {w : Nat} (hw : Writes lines k w) :
    Event.c w < Event.s j ↔ ∃ x ∈ xs, Appends lines w k x := by
  constructor
  · intro hlt
    by_contra hno
    obtain ⟨y, hy⟩ := hw
    have hne : w ≠ j := by
      intro he
      subst he
      exact lt_asymm hlt (hex.begins w (lt_of_reads hr).2)
    have hmissed : MissedAppend lines j w :=
      .unseen hr hy (fun hm => hno ⟨y, hm, hy⟩) hne
        fun z hz hz' => hno ⟨z, List.mem_of_getLast? hz, hz'⟩
    exact lt_asymm hlt (hex.missed j w hmissed)
  · intro hx
    obtain ⟨x, hx, hxw⟩ := hx
    obtain ⟨z, hz⟩ := Option.isSome_iff_exists.mp (List.getLast?_isSome.mpr (List.ne_nil_of_mem hx))
    obtain ⟨a, ha⟩ := hS j k xs z hr (List.mem_of_getLast? hz)
    have hza := (ha a).mpr rfl
    have hlt := hex.reads k a j ⟨xs, z, hr, hz, hza⟩
    have hle : Event.c w ≤ Event.c a := by
      have hsorted := h.appenders_read hex hS hr
      obtain ⟨l, rfl⟩ := List.getLast?_eq_some_iff.mp hz
      cases List.mem_append.mp hx with
      | inl hl =>
        obtain ⟨w', a', hw', ha', hle⟩ :=
          (List.pairwise_append.mp hsorted).2.2 x hl z (List.mem_singleton.mpr rfl)
        obtain rfl := h.unique.appender hxw hw'
        obtain rfl := h.unique.appender hza ha'
        exact hle
      | inr he =>
        rw [List.mem_singleton.mp he] at hxw
        rw [h.unique.appender hxw hza]
    exact lt_of_le_of_lt hle hlt

theorem Traceable.sorted_read : xs.Pairwise (ElementBefore lines k) := by
  rw [List.pairwise_iff_getElem]
  intro p q hp hq hlt
  obtain ⟨a, b, hx, hy, hle⟩ :=
    List.pairwise_iff_getElem.mp (h.appenders_read hex hS hr) p q hp hq hlt
  by_cases hab : a = b
  · subst hab
    obtain ⟨m, n, hmn, hm, hn⟩ :=
      places_of_infix (h.whole a j k xs _ hr hx (List.getElem_mem hp)) (h.once j k xs hr)
      (List.getElem?_eq_getElem hp) (List.getElem?_eq_getElem hq) hlt ((mem_appendsTo k _ _).mpr hx)
      ((mem_appendsTo k _ _).mpr hy)
    exact .inr ⟨a, m, n, hmn, hm, hn⟩
  · exact .inl ⟨a, b, hx, hy, lt_of_le_of_ne hle fun he => hab (Event.c.inj he)⟩

/-- A read shows the snapshot, element by element. -/
theorem Traceable.read_snapshot : xs = snapshot lines j k := by
  apply eq_of_sorted (fun x y => ElementBefore.asymm h.unique) (h.sorted_read hex hS hr)
    (sorted_snapshot lines j k)
  intro x
  rw [mem_snapshot]
  constructor
  · intro hx
    obtain ⟨a, ha⟩ := hS j k xs x hr hx
    have hxa := (ha a).mpr rfl
    exact ⟨a, hxa, (h.seen_iff hex hS hr ⟨x, hxa⟩).mpr ⟨x, hx, hxa⟩⟩
  · intro hx
    obtain ⟨i, hxi, hlt⟩ := hx
    obtain ⟨y, hy, hyi⟩ := (h.seen_iff hex hS hr ⟨x, hxi⟩).mp hlt
    exact (h.whole i j k xs y hr hyi hy).subset ((mem_appendsTo k _ x).mpr hxi)

omit hr

/-- The order that explains the log isolates it. -/
theorem Traceable.isolated {chains : κ → List (List Nat)}
    (hC : Chaining (workload lines) (Successor lines) chains) :
    SnapshotIsolated lines strongSession where
  begins := hex.begins
  initial := hex.initial
  sessions := fun hs i j p hij hi hj => hex.sessions hs i j ⟨hij, p, hi, hj⟩
  reads := fun _ _ _ hr => h.read_snapshot hex hS hr
  apart := fun _ _ _ hne hi hj =>
    (h.legal hex hC).apart (writes_iff_appendsTo.mpr hi) (writes_iff_appendsTo.mpr hj) hne

end Reads

section Runs

variable {S S' : κ → Option (List ν)} {own own' : Dict κ (List ν)} {ops : List (LogMop κ ν)}

/-- A run depends on the lists that it sees. -/
theorem runs_congr (hS : ∀ k, (S k).getD [] = (S' k).getD []) (h : Runs lists S own ops own') :
    Runs lists S' own ops own' := by
  have hseen : ∀ own k, seenList S own k = seenList S' own k := by
    intro own k
    rw [seenList, seenList, seen, seen]
    cases own.get? k with
    | none => exact hS k
    | some xs => rfl
  induction h with
  | nil => exact .nil
  | @cons own _ _ mop ops hstep _ ih =>
    obtain ⟨hshows, rfl⟩ := hstep
    apply Runs.cons _ ih
    cases mop with
    | append k x => exact ⟨trivial, by rw [ownAfter, ownAfter, hseen]⟩
    | r k v => exact ⟨hshows.trans (hseen own k), rfl⟩

/-- Reads of what was there before, and of what was appended since. -/
theorem runs_of_reads
    (h : ∀ m k v, ops[m]? = some (.r k v) → v.getD [] = (S k).getD [] ++ appendsTo k (ops.take m)) :
    Runs lists S Dict.empty ops (ops.foldl (ownAfter S) Dict.empty) := by
  induction ops using List.reverseRecOn with
  | nil => exact .nil
  | append_singleton ops mop ih =>
    have hruns : Runs lists S Dict.empty ops (ops.foldl (ownAfter S) Dict.empty) := by
      apply ih
      intro m k v hm
      have hlt := (List.getElem?_eq_some_iff.mp hm).1
      have hv := h m k v ((List.getElem?_append_left hlt).trans hm)
      rwa [List.take_append_of_le_length hlt.le] at hv
    rw [List.foldl_append]
    apply hruns.append (Runs.cons ⟨?_, rfl⟩ .nil)
    cases mop with
    | append k x => trivial
    | r k v =>
      have hv := h ops.length k v List.getElem?_concat_length
      rw [List.take_append_of_le_length (Nat.le_refl _), List.take_length] at hv
      exact hv.trans (seenList_of_runs hruns k).symm

theorem flatMap_filter {α β : Type} {P : α → Bool} {f : α → List β} {l : List α}
    (h : ∀ a ∈ l, P a = false → f a = []) :
    (l.filter P).flatMap f = l.flatMap f := by
  induction l with
  | nil => rfl
  | cons a l ih =>
    have ih := ih fun b hb => h b (List.mem_cons_of_mem a hb)
    cases hp : P a with
    | true => rw [List.filter_cons_of_pos hp, List.flatMap_cons, List.flatMap_cons, ih]
    | false =>
      rw [List.filter_cons_of_neg (Bool.eq_false_iff.mp hp), List.flatMap_cons,
        h a List.mem_cons_self hp, ih, List.nil_append]

end Runs

section Schedules

variable [LinearOrder Event] {lines : List (LogTxn κ ν)} {strongSession : Bool}

/-- The lists that transaction `i` leaves. -/
def ownAt (lines : List (LogTxn κ ν)) (i : Nat) : Dict κ (List ν) :=
  (opsOf lines i).foldl (ownAfter fun k => some (snapshot lines i k)) Dict.empty

variable (h : Traceable lines) (hI : SnapshotIsolated lines strongSession)
include h hI

theorem runs_snapshot (i : Nat) :
    Runs lists (fun k => some (snapshot lines i k)) Dict.empty (opsOf lines i) (ownAt lines i) := by
  apply runs_of_reads
  intro m k v hm
  obtain ⟨xs, hr, hv⟩ := h.internal i k v m hm
  rw [hv, hI.reads i k xs hr]
  rfl

theorem ownAt_none (i : Nat) (k : κ) :
    (ownAt lines i).get? k = none ↔ appendsTo k (opsOf lines i) = [] := by
  rw [written_of_runs (runs_snapshot h hI i) k]
  exact and_iff_right (Dict.get?_empty k)

theorem ownAt_some {i : Nat} {k : κ} {xs : List ν} (hw : (ownAt lines i).get? k = some xs) :
    xs = snapshot lines i k ++ appendsTo k (opsOf lines i) := by
  have hk : appendsTo k (opsOf lines i) ≠ [] := by
    intro hk
    cases ((ownAt_none h hI i k).mpr hk).symm.trans hw
  exact Option.some.inj (hw.symm.trans (state_of_runs (runs_snapshot h hI i) hk))

variable {ids : List Nat} (hids : ∀ i, i ∈ ids ↔ 0 < i ∧ i ≤ lines.length)
  (hsorted : ids.Pairwise fun i j => Event.c i < Event.c j)
include hids hsorted

omit [LinearOrder κ] h hI in
theorem committedBefore_filter (i : Nat) :
    committedBefore lines.length i = ids.filter fun j => Event.c j < Event.s i := by
  apply eq_of_sorted (fun _ _ => lt_asymm) (sorted_committedBefore lines.length i)
    (hsorted.filter _)
  intro j
  rw [mem_committedBefore, List.mem_filter, hids, decide_eq_true_iff]

omit h in
/-- Between the snapshot and the commit of an appender nobody else appends. -/
theorem snapshot_appender {i j : Nat} {k : κ} {l r : List Nat}
    (hsplit : (ids.filter fun m => Event.c m < Event.s i) = l ++ j :: r)
    (hk : appendsTo k (opsOf lines j) ≠ []) :
    l.flatMap (fun m => appendsTo k (opsOf lines m)) = snapshot lines j k := by
  have hordered := hsorted.filter fun m => decide (Event.c m < Event.s i)
  rw [hsplit, List.pairwise_append, List.pairwise_cons] at hordered
  obtain ⟨hl, ⟨hr, _⟩, hlj⟩ := hordered
  have hmem : ∀ m, m ∈ l ++ j :: r ↔ m ∈ ids ∧ Event.c m < Event.s i := by
    intro m
    rw [← hsplit, List.mem_filter, decide_eq_true_iff]
  have hj := (hmem j).mp (List.mem_append_right l List.mem_cons_self)
  have hsj := hI.begins j ((hids j).mp hj.1).2
  have hfirst : (l.filter fun m => Event.c m < Event.s j) =
      ids.filter fun m => Event.c m < Event.s j := by
    apply eq_of_sorted (fun _ _ => lt_asymm) (hl.filter _) (hsorted.filter _)
    intro m
    rw [List.mem_filter, List.mem_filter, decide_eq_true_iff]
    constructor
    · intro hm
      exact ⟨((hmem m).mp (List.mem_append_left _ hm.1)).1, hm.2⟩
    · intro hm
      refine ⟨?_, hm.2⟩
      have hlt := hm.2.trans hsj
      cases List.mem_append.mp ((hmem m).mpr ⟨hm.1, hlt.trans hj.2⟩) with
      | inl hm => exact hm
      | inr hm =>
        cases List.mem_cons.mp hm with
        | inl he => exact absurd hlt (he ▸ lt_irrefl _)
        | inr hm => exact absurd hlt (lt_asymm (hr m hm))
  rw [snapshot, committedBefore_filter hids hsorted j, ← hfirst]
  symm
  apply flatMap_filter
  intro m hm hno
  by_contra hmk
  have hmj := hlj m hm j List.mem_cons_self
  cases hI.apart k m j (fun he => absurd hmj (he ▸ lt_irrefl _)) hmk hk with
  | inl hlt => exact of_decide_eq_false hno hlt
  | inr hlt =>
    have hsm := hI.begins m ((hids m).mp ((hmem m).mp (List.mem_append_left _ hm)).1).2
    exact lt_asymm hmj (hlt.trans hsm)

/-- What the store holds at a begin is the snapshot. -/
theorem view_snapshot (i : Nat) (k : κ) :
    (view lists (fun _ => none)
      (commitsBefore Event.s Event.c ids (opsOf lines) (ownAt lines) i) k).getD [] =
      snapshot lines i k := by
  have hnone :
      ∀ {l : List Nat}, (∀ u ∈ l.map (scheduled Event.s Event.c ids (opsOf lines) (ownAt lines)),
      lists.writes u.state k = none) → l.flatMap (fun j => appendsTo k (opsOf lines j)) = [] := by
    intro l hl
    apply List.flatMap_eq_nil_iff.mpr
    intro j hj
    exact (ownAt_none h hI j k).mp (hl _ (List.mem_map_of_mem hj))
  rw [snapshot, committedBefore_filter hids hsorted i]
  cases view_cases (C := lists) (fun _ => none)
    (commitsBefore Event.s Event.c ids (opsOf lines) (ownAt lines) i) k with
  | inr hno => rw [hno.2, hnone hno.1, Option.getD_none]
  | inl hlast =>
    obtain ⟨l₁, t, l₂, xs, hsplit, hw, hno, hview⟩ := hlast
    obtain ⟨l, r', hlr, rfl, hr'⟩ := List.map_eq_append_iff.mp hsplit
    obtain ⟨j, r, rfl, rfl, rfl⟩ := List.map_eq_cons_iff.mp hr'
    have hxs := ownAt_some h hI hw
    have hk : appendsTo k (opsOf lines j) ≠ [] := by
      intro hk
      cases ((ownAt_none h hI j k).mpr hk).symm.trans hw
    rw [hview, hlr, List.flatMap_append, List.flatMap_cons, hnone hno,
      snapshot_appender hI hids hsorted hlr hk, List.append_nil, Option.getD_some, hxs]

/-- The store could have followed the order. -/
theorem schedule_of_isolated : Schedule Event.s Event.c ids (opsOf lines) (ownAt lines) lists
    (fun _ => none) (processPrior lines strongSession) where
  sorted := hsorted
  begins i hi := hI.begins i ((hids i).mp hi).2
  apart i _ j _ hne hk := by
    obtain ⟨k, hwi, hwj⟩ := hk
    exact hI.apart k i j hne (fun he => hwi ((ownAt_none h hI i k).mpr he))
      (fun he => hwj ((ownAt_none h hI j k).mpr he))
  prior u i _ hu := by
    obtain ⟨hs, hlt, p, hpu, hpi⟩ := hu
    exact ⟨(hids u).mpr (lt_of_process hpu), hI.sessions hs u i p hlt hpu hpi⟩
  runs i _ := by
    apply runs_congr _ (runs_snapshot h hI i)
    intro k
    exact (view_snapshot h hI hids hsorted i k).symm

omit hids hsorted

/-- An isolated log is left behind by a run. -/
theorem run_of_isolated : ListRun lines strongSession := by
  obtain ⟨ids, hids, hsorted⟩ := exists_commitOrder lines.length
  obtain ⟨running, hreach⟩ := valid_iff.mp (schedule_of_isolated h hI hids hsorted).valid
  refine ⟨_, hreach, ?_, ?_⟩
  · intro i h0 hi
    exact ⟨_, List.mem_map_of_mem ((hids i).mpr ⟨h0, hi⟩), rfl⟩
  · intro t ht
    obtain ⟨i, hi, rfl⟩ := List.mem_map.mp ht
    exact ⟨((hids i).mp hi).1, ((hids i).mp hi).2, rfl⟩

end Schedules

section Main

variable [DecidableEq ν] [ToString κ]

/-- Nothing missed: on a log that leaves no doubt about its lists, algorithm 8 accepts
exactly what a run of the store leaves behind. -/
theorem algo8_finds_run (o : SetOrder) (monosat : GraphSat.Oracle) (lines : List (LogTxn κ ν))
    (strongSession : Bool)
    (h : Traceable lines) : ∃ enough,
    ∀ fuel, enough ≤ fuel → ∃ r, algo8 fuel o monosat lines strongSession = some r ∧
      (r = .ok true ↔ ListRun lines strongSession) := by
  obtain ⟨enough, hfive⟩ := algo8_eq o monosat lines strongSession
  refine ⟨enough, ?_⟩
  intro fuel hf
  refine ⟨_, hfive fuel hf, ?_⟩
  constructor
  · intro hr
    have hexplainable := (mainAlgo35_append_iff o monosat lines strongSession).mp hr
    obtain ⟨_, hex⟩ := hexplainable.explained
    obtain ⟨g, con, hok, _⟩ := mainAlgo35_eq_true.mp hr
    obtain ⟨chains, readfrom, he⟩ := encoded_of_ok hok
    exact run_of_isolated h (h.isolated hex hexplainable.sourced he.chaining)
  · intro hrun
    obtain ⟨st, hreach, hrecorded⟩ := hrun
    exact mainAlgo35_of_isolated o monosat h.unique (isolated_of_run hreach.inv.valid hrecorded)

section Example

/-- A list that is handed on from a transaction to the next. -/
def handedOn : List (LogTxn Nat Nat) :=
  [⟨1, [.append 1 10, .append 1 11]⟩,
    ⟨2, [.r 1 (some [10, 11]), .append 1 12, .r 1 (some [10, 11, 12])]⟩,
    ⟨1, [.r 1 (some [10, 11, 12]), .r 2 none]⟩]

theorem appends_handedOn {i k x : Nat} (h : Appends handedOn i k x) :
    (i, k, x) ∈ [(1, 1, 10), (1, 1, 11), (2, 1, 12)] := by
  match i with
  | 0 => cases h
  | 1 | 2 => simpa [Appends, handedOn, opsOf] using h
  | 3 => simp [Appends, handedOn, opsOf] at h
  | i + 4 => simp [Appends, handedOn, opsOf] at h

theorem reads_handedOn {j k : Nat} {xs : List Nat} (h : Reads handedOn j k xs) :
    (j, k, xs) ∈ [(2, 1, [10, 11]), (3, 1, [10, 11, 12]), (3, 2, [])] := by
  by_cases h₁ : 1 = k
  · subst h₁
    match j with
    | 0 | 1 => cases h
    | 2 | 3 =>
      cases h
      decide
    | j + 4 => cases h
  · by_cases h₂ : 2 = k
    · subst h₂
      match j with
      | 0 | 1 | 2 => cases h
      | 3 =>
        cases h
        decide
      | j + 4 => cases h
    · match j with
      | 0 => cases h
      | 1 | 2 | 3 => simp [Reads, handedOn, opsOf, externalRead, LogMop.key, h₁, h₂] at h
      | j + 4 => cases h

theorem traceable_handedOn : Traceable handedOn := by
  constructor
  · intro k
    by_cases hk : 1 = k
    · subst hk
      decide
    · simp [handedOn, appendsTo, hk]
  · intro k a b hab
    obtain ⟨j, xs, x, y, hr, hlinked, hx, hy, hne⟩ := hab
    rw [← mem_zip_tail] at hlinked
    have hall : ∀ r ∈ [(2, 1, [10, 11]), (3, 1, [10, 11, 12]), (3, 2, [])],
        ∀ p ∈ [(1, 1, 10), (1, 1, 11), (2, 1, 12)],
        ∀ q ∈ [(1, 1, 10), (1, 1, 11), (2, 1, 12)], p.2.1 = q.2.1 →
        (p.2.2, q.2.2) ∈ r.2.2.zip r.2.2.tail → p.1 ≠ q.1 →
          (p.2.1, p.1, q.1) = (1, 1, 2) := by decide
    cases hall _ (reads_handedOn hr) _ (appends_handedOn hx) _ (appends_handedOn hy) rfl hlinked hne
    exact ⟨[10, 11], 11, rfl, rfl, List.mem_cons_of_mem _ List.mem_cons_self⟩
  · intro j k xs hr
    have hall : ∀ r ∈ [(2, 1, [10, 11]), (3, 1, [10, 11, 12]), (3, 2, [])], r.2.2.Nodup := by decide
    exact hall _ (reads_handedOn hr)
  · intro i j k xs x hr hx hm
    have hall : ∀ r ∈ [(2, 1, [10, 11]), (3, 1, [10, 11, 12]), (3, 2, [])],
        ∀ p ∈ [(1, 1, 10), (1, 1, 11), (2, 1, 12)],
        p.2.2 ∈ r.2.2 → appendsTo p.2.1 (opsOf handedOn p.1) <:+: r.2.2 := by decide
    exact hall _ (reads_handedOn hr) _ (appends_handedOn hx) hm
  · intro i k v m hm
    rcases i with _ | _ | _ | _ | i <;> rcases m with _ | _ | _ | m <;> cases hm
    · exact ⟨[10, 11], rfl, rfl⟩
    · exact ⟨[10, 11], rfl, rfl⟩
    · exact ⟨[10, 11, 12], rfl, rfl⟩
    · exact ⟨[], rfl, rfl⟩

theorem algo8_finds_run_handedOn : Traceable handedOn ∧ ∃ enough, ∀ fuel, enough ≤ fuel →
    ∃ r, algo8 fuel .stored .exact handedOn true = some r ∧
    (r = .ok true ↔ ListRun handedOn true) :=
  ⟨traceable_handedOn, algo8_finds_run .stored .exact handedOn true traceable_handedOn⟩

end Example

end Main

end Append

end Viper
