import Viper.AppendEncoding
import Mathlib.Data.List.Sort

/-!
# No false alarms on list-append logs

A log is snapshot isolated when an order of its begin and commit events makes
every external read return the appends committed before the reader began, in
commit order. On such a log the builder completes and the checker accepts.
-/
namespace Viper

open Py Chains Versions Precedence

namespace Append

variable {κ ν : Type} [LinearOrder κ]

/-- The transactions committed before `j` begins, in commit order. -/
def committedBefore [LinearOrder Event] (n j : Nat) : List Nat :=
  ((List.range' 1 n).filter (fun i => Event.c i < Event.s j)).insertionSort
    (fun i i' => Event.c i ≤ Event.c i')

/-- The list under key `k` in the snapshot of transaction `j`. -/
def snapshot [LinearOrder Event] (lines : List (LogTxn κ ν)) (j : Nat) (k : κ) : List ν :=
  (committedBefore lines.length j).flatMap (fun i => appendsTo k (opsOf lines i))

structure SnapshotIsolated [LinearOrder Event] (lines : List (LogTxn κ ν))
    (strongSession : Bool) : Prop where
  begins : ∀ i, i ≤ lines.length → Event.s i < Event.c i
  initial : ∀ i, 0 < i → i ≤ lines.length → Event.c 0 < Event.s i
  sessions : strongSession = true →
    ∀ i j p, i < j → processOf lines i = some p → processOf lines j = some p →
    Event.c i < Event.s j
  reads : ∀ j k xs, externalRead (opsOf lines j) k = some xs → xs = snapshot lines j k
  apart : ∀ k i j, i ≠ j → appendsTo k (opsOf lines i) ≠ [] → appendsTo k (opsOf lines j) ≠ [] →
    Event.c i < Event.s j ∨ Event.c j < Event.s i

/-- No element is appended twice to a key. -/
def UniqueAppends (lines : List (LogTxn κ ν)) : Prop :=
  ∀ k, (lines.flatMap fun line => appendsTo k line.value).Nodup

theorem writes_iff_appendsTo {lines : List (LogTxn κ ν)} {k : κ} {i : Nat} :
    Writes lines k i ↔ appendsTo k (opsOf lines i) ≠ [] := by
  constructor
  · rintro ⟨x, hx⟩
    exact List.ne_nil_of_mem ((mem_appendsTo k _ x).mpr hx)
  · intro h
    obtain ⟨x, hx⟩ := List.exists_mem_of_ne_nil _ h
    exact ⟨x, (mem_appendsTo k _ x).mp hx⟩

theorem UniqueAppends.appender {lines : List (LogTxn κ ν)} (h : UniqueAppends lines) {i j : Nat}
    {k : κ} {x : ν} (hi : Appends lines i k x) (hj : Appends lines j k x) : i = j := by
  have hp := (List.nodup_flatMap.mp (h k)).2
  have hget : ∀ {i}, Appends lines i k x → ∃ (m : Nat) (hm : m < lines.length), i = m + 1 ∧
      x ∈ appendsTo k lines[m].value := by
    intro i hi
    obtain ⟨hpos, hle⟩ := hi.lt
    obtain ⟨m, rfl⟩ := Nat.exists_eq_succ_of_ne_zero (Nat.pos_iff_ne_zero.mp hpos)
    refine ⟨m, hle, rfl, (mem_appendsTo k _ x).mpr ?_⟩
    rw [Appends, Nat.succ_eq_add_one, opsOf, List.getElem?_eq_getElem hle] at hi
    exact hi
  obtain ⟨m, hm, rfl, hxm⟩ := hget hi
  obtain ⟨m', hm', rfl, hxm'⟩ := hget hj
  rw [List.pairwise_iff_getElem] at hp
  rcases Nat.lt_trichotomy m m' with hlt | rfl | hlt
  · exact absurd hxm' (hp m m' hm hm' hlt hxm)
  · rfl
  · exact absurd hxm (hp m' m hm' hm hlt hxm')

section Snapshots

variable [LinearOrder Event]

theorem mem_committedBefore (n j i : Nat) :
    i ∈ committedBefore n j ↔ (0 < i ∧ i ≤ n) ∧ Event.c i < Event.s j := by
  simp only [committedBefore, List.mem_insertionSort, List.mem_filter, List.mem_range'_1,
    decide_eq_true_eq]
  refine and_congr_left fun _ => ?_
  omega

theorem sorted_committedBefore (n j : Nat) :
    (committedBefore n j).Pairwise (fun i i' => Event.c i < Event.c i') := by
  let r : Nat → Nat → Prop := fun i i' => Event.c i ≤ Event.c i'
  have : Std.Total r := ⟨fun i i' => le_total (Event.c i) (Event.c i')⟩
  have : IsTrans Nat r := ⟨fun _ _ _ h h' => le_trans h h'⟩
  have hle : (committedBefore n j).Pairwise r := List.pairwise_insertionSort r _
  have hnd : (committedBefore n j).Nodup :=
    (List.perm_insertionSort r _).nodup_iff.mpr (List.Nodup.filter _ List.nodup_range')
  refine (hle.and hnd).imp (fun {i i'} h => lt_of_le_of_ne h.1 (fun he => h.2 ?_))
  cases he
  rfl

variable {lines : List (LogTxn κ ν)} {strongSession : Bool}
  (h : SnapshotIsolated lines strongSession) (hU : UniqueAppends lines)
include h

theorem SnapshotIsolated.begins_of_writes (k : κ) (i : Nat) (hw : Writes lines k i) :
    Event.s i < Event.c i :=
  h.begins i hw.lt.2

theorem SnapshotIsolated.mem_read {j : Nat} {k : κ} {xs : List ν}
    (hr : Reads lines j k xs) (x : ν) :
    x ∈ xs ↔ ∃ i, Appends lines i k x ∧ Event.c i < Event.s j := by
  rw [h.reads j k xs hr, snapshot]
  simp only [List.mem_flatMap, mem_committedBefore, mem_appendsTo]
  constructor
  · rintro ⟨i, ⟨_, hi⟩, hx⟩
    exact ⟨i, hx, hi⟩
  · rintro ⟨i, hx, hi⟩
    exact ⟨i, ⟨Appends.lt hx, hi⟩, hx⟩

include hU

theorem SnapshotIsolated.sourced : Sourced lines := by
  intro j k xs x hr hx
  obtain ⟨a, ha, _⟩ := (h.mem_read hr x).mp hx
  exact ⟨a, fun i => ⟨fun hi => hU.appender hi ha, fun he => he ▸ ha⟩⟩

/-- A reader sees the last version of its snapshot. -/
theorem SnapshotIsolated.last {k : κ} {a j : Nat} (hr : ReadsFrom lines k a j) :
    Event.c a < Event.s j ∧ ∀ x, Writes lines k x → Event.c x < Event.s j →
      Event.c x ≤ Event.c a := by
  obtain ⟨xs, y, hr, hy, ha⟩ := hr
  obtain rfl := h.reads j k xs hr
  obtain ⟨l₁, a', l₂, hL, hlast, hempty⟩ := getLast?_flatMap hy
  obtain rfl : a' = a := hU.appender ((mem_appendsTo k _ y).mp (List.mem_of_getLast? hlast)) ha
  have hmem := mem_committedBefore lines.length j
  refine ⟨((hmem a').mp (by rw [hL]; simp)).2, fun x hx hxj => ?_⟩
  have hsorted := sorted_committedBefore lines.length j
  rw [hL, List.pairwise_append] at hsorted
  have hxL := (hmem x).mpr ⟨hx.lt, hxj⟩
  rw [hL, List.mem_append, List.mem_cons] at hxL
  rcases hxL with hx₁ | rfl | hx₂
  · exact le_of_lt (hsorted.2.2 x hx₁ a' List.mem_cons_self)
  · exact le_refl _
  · exact absurd (hempty x hx₂) (writes_iff_appendsTo.mp hx)

/-- Neighbours in a list committed one after the other. -/
theorem SnapshotIsolated.neighbours {k : κ} {a b : Nat} (hab : Observed lines k a b) :
    Event.c a < Event.c b ∧ ∃ j, Event.c b < Event.s j ∧
      ∀ x, Writes lines k x → Event.c x < Event.s j →
      ¬ (Event.c a < Event.c x ∧ Event.c x < Event.c b) := by
  obtain ⟨j, xs, y, z, hr, hl, ha, hb, hne⟩ := hab
  obtain rfl := h.reads j k xs hr
  have happ : ∀ {i x}, x ∈ appendsTo k (opsOf lines i) → Appends lines i k x :=
    fun hx => (mem_appendsTo k _ _).mp hx
  rcases linked_flatMap hl with ⟨i, _, hi⟩ | ⟨l₁, a', l₂, b', l₃, hL, hlast, hempty, hhead⟩
  · have h₁ := hU.appender (happ hi.mem.1) ha
    have h₂ := hU.appender (happ hi.mem.2) hb
    exact absurd (h₁.symm.trans h₂) hne
  · obtain rfl := hU.appender (happ (List.mem_of_getLast? hlast)) ha
    obtain rfl := hU.appender (happ (List.mem_of_head? hhead)) hb
    have hmem := mem_committedBefore lines.length j
    have hsorted := sorted_committedBefore lines.length j
    rw [hL, List.pairwise_append] at hsorted
    obtain ⟨_, hs₂, hs₁⟩ := hsorted
    rw [List.pairwise_cons] at hs₂
    obtain ⟨hs₃, hs₂⟩ := hs₂
    refine ⟨hs₃ b' (by simp), j, ((hmem b').mp (by rw [hL]; simp)).2, fun x hx hxj ⟨hax, hxb⟩ => ?_⟩
    have hxL := (hmem x).mpr ⟨hx.lt, hxj⟩
    rw [hL] at hxL
    rcases List.mem_append.mp hxL with hx₁ | hx₁
    · exact lt_asymm hax (hs₁ x hx₁ a' List.mem_cons_self)
    · rcases List.mem_cons.mp hx₁ with rfl | hx₁
      · exact lt_irrefl _ hax
      · rcases List.mem_append.mp hx₁ with hx₂ | hx₂
        · exact absurd (hempty x hx₂) (writes_iff_appendsTo.mp hx)
        · rcases List.mem_cons.mp hx₂ with rfl | hx₂
          · exact lt_irrefl _ hxb
          · have := (List.pairwise_cons.mp (List.pairwise_append.mp hs₂).2.1).1 x hx₂
            exact lt_asymm hxb this

theorem SnapshotIsolated.legal : Legal (workload lines) Event.s Event.c where
  apart hi hj hne := h.apart _ _ _ hne (writes_iff_appendsTo.mp hi) (writes_iff_appendsTo.mp hj)
  reads hr := (h.last hU hr).1
  others := by
    intro k i j x hr hx hxi _
    by_cases hxj : Event.c x < Event.s j
    · have hle := (h.last hU hr).2 x hx hxj
      have hsx := h.begins_of_writes k x hx
      rcases h.apart k x i hxi (writes_iff_appendsTo.mp hx)
        (writes_iff_appendsTo.mp hr.writes) with h₁ | h₁
      · exact .inl h₁
      · exact absurd hle (not_le.mpr (h₁.trans hsx))
    · exact .inr (lt_of_le_of_ne (not_lt.mp hxj) (by simp))

/-- Both sources of successors name adjacent versions. -/
theorem SnapshotIsolated.adjacent {k : κ} {a b : Nat} (hab : Successor lines k a b) :
    Adjacent (workload lines) Event.s Event.c k a b := by
  have hL := h.legal hU
  have hsc := h.begins_of_writes
  rcases hab with ⟨hb, hr⟩ | hab
  · exact hL.adjacent hsc hb hr
  · obtain ⟨ha, hb⟩ := Successor.writes (.inr hab)
    obtain ⟨hlt, j, hbj, hno⟩ := h.neighbours hU hab
    have hne : a ≠ b := fun he => by subst he; exact lt_irrefl _ hlt
    have hsa := hsc k a ha
    have hsb := hsc k b hb
    refine ⟨?_, fun x hx hxa hxb => ?_⟩
    · rcases hL.apart ha hb hne with h₁ | h₁
      · exact h₁
      · order
    · have hsx := hsc k x hx
      rcases hL.apart hx ha hxa with h₁ | h₁
      · exact .inl h₁
      · rcases hL.apart hx hb hxb with h₂ | h₂
        · exact absurd ⟨by order, by order⟩ (hno x hx (by order))
        · exact .inr h₂

theorem SnapshotIsolated.holds_known (o : SetOrder) {e : Edge}
    (he : Known lines (parse o lines).2 strongSession e) : e.Holds := by
  cases he with
  | session hs hc =>
    obtain ⟨hlt, p, hi, hj⟩ := consecutive_parse o lines hc
    exact h.sessions hs _ _ p hlt hi hj
  | initial hi hn => exact h.initial _ hi hn
  | read hr =>
    cases hr with
    | nil hr => exact h.initial _ (lt_of_reads hr).1 (lt_of_reads hr).2
    | read hr => exact (h.legal hU).reads hr
    | missed hr hw hn _ _ =>
      have hlt : ¬ Event.c _ < Event.s _ := fun hlt => hn ((h.mem_read hr _).mpr ⟨_, hw, hlt⟩)
      exact lt_of_le_of_ne (not_lt.mp hlt) (fun he => by cases he)

theorem SnapshotIsolated.not_readsFrom_self (k : κ) (j : Nat) : ¬ ReadsFrom lines k j j := by
  intro hr
  have hlt := (h.legal hU).reads hr
  have hsc := h.begins_of_writes k j hr.writes
  order

/-- Chains of adjacent versions are found, merged and never closed. -/
theorem SnapshotIsolated.encoded [DecidableEq ν] [ToString κ] (o : SetOrder) :
    ∃ g con chains readfrom, constructEncoding o (parse o lines).1 (parse o lines).2 strongSession =
      .ok (g, con) ∧
      Encoded o lines (parse o lines).2 strongSession chains readfrom g con := by
  have hsc := h.begins_of_writes
  have hadj := fun {k a b} (hab : Successor lines k a b) => h.adjacent hU hab
  refine encoding_total o strongSession (h.sourced hU) (h.not_readsFrom_self hU)
    (fun k a b b' hb hb' => ?_) (fun k a a' b ha ha' => ?_) (fun k => ?_)
  · exact Adjacent.successor_unique hsc hb.writes.1 hb.writes.2 hb'.writes.2 (hadj hb) (hadj hb')
  · exact Adjacent.predecessor_unique hsc ha.writes.1 ha'.writes.1 ha.writes.2 (hadj ha) (hadj ha')
  · exact acyclic_of_map Event.c (fun a b hab => (hadj hab).1.trans (hsc k b hab.writes.2))

end Snapshots

section Main

variable [DecidableEq ν] [ToString κ]

/-- On a snapshot isolated log the builder raises nothing and the checker accepts. -/
theorem accepts_snapshotIsolated (o : SetOrder) (monosat : GraphSat.Oracle)
    (lines : List (LogTxn κ ν)) (strongSession : Bool) (hU : UniqueAppends lines)
    (hI : ∃ _ : LinearOrder Event, SnapshotIsolated lines strongSession) :
    ∃ g con, constructEncoding o (parse o lines).1 (parse o lines).2 strongSession = .ok (g, con) ∧
      monosat.solve (MonoBCPolyGraphCheckerOptimized.check o g con) = true := by
  obtain ⟨_, h⟩ := hI
  obtain ⟨g, con, chains, readfrom, hok, he⟩ := h.encoded hU o
  refine ⟨g, con, hok,
    (monosat.solve_iff _).mpr (he.satisfiable_iff.mpr ⟨_, he.ordered_iff.mpr ⟨h.begins, ?_, ?_⟩⟩)⟩
  · exact fun e hk => h.holds_known hU o hk
  · exact chainLegal_of_adjacent he.chaining h.begins_of_writes (h.legal hU)
      (fun k a b _ _ hab => h.adjacent hU hab)

/-- Transactions one after the other. -/
def serialRank : Event → Nat
  | .s i => 2 * i
  | .c i => 2 * i + 1

theorem serialRank_injective : Function.Injective serialRank := by
  rintro (i | i) (j | j) h <;> simp only [serialRank] at h
  · exact congrArg Event.s (by omega)
  · omega
  · omega
  · exact congrArg Event.c (by omega)

/-- Two appenders, one of which also reads, and a reader. -/
def appendLog : List (LogTxn Nat Nat) :=
  [⟨1, [.append 1 10, .append 1 11]⟩, ⟨2, [.r 1 (some [10, 11]), .append 1 12]⟩,
    ⟨1, [.r 1 (some [10, 11, 12]), .r 2 none]⟩]

theorem unique_appendLog : UniqueAppends appendLog := by
  intro k
  by_cases hk : 1 = k
  · subst hk
    decide
  · simp [appendLog, appendsTo, hk]

theorem isolated_appendLog : @SnapshotIsolated Nat Nat _
    (LinearOrder.lift' serialRank serialRank_injective) appendLog
    true := by
  let _ : LinearOrder Event := LinearOrder.lift' serialRank serialRank_injective
  have hlt : ∀ {a b : Event}, serialRank a < serialRank b → a < b := fun h => h
  refine ⟨fun i _ => hlt (Nat.lt_succ_self _),
    fun i hi _ => hlt ?_, fun _ i j p hij _ _ => hlt ?_, ?_, ?_⟩
  · show 2 * 0 + 1 < 2 * i
    omega
  · show 2 * i + 1 < 2 * j
    omega
  · intro j k xs h
    match j with
    | 0 => cases h
    | 1 =>
      by_cases hk : 1 = k
      · subst hk
        cases h
      · simp [appendLog, opsOf, externalRead, LogMop.key, hk] at h
    | 2 =>
      by_cases hk : 1 = k
      · subst hk
        cases h
        decide
      · simp [appendLog, opsOf, externalRead, LogMop.key, hk] at h
    | 3 =>
      by_cases hk : 1 = k
      · subst hk
        cases h
        decide
      · by_cases hk' : 2 = k
        · subst hk'
          cases h
          decide
        · simp [appendLog, opsOf, externalRead, LogMop.key, hk, hk'] at h
    | j + 4 => simp [appendLog, opsOf, externalRead] at h
  · intro k i j hne _ _
    rcases Nat.lt_or_gt_of_ne hne with h | h
    · exact .inl (hlt (show 2 * i + 1 < 2 * j by omega))
    · exact .inr (hlt (show 2 * j + 1 < 2 * i by omega))

theorem accepts_appendLog : UniqueAppends appendLog ∧
    (∃ _ : LinearOrder Event, SnapshotIsolated appendLog true) ∧
    ∃ g con, constructEncoding .stored (parse .stored appendLog).1
      (parse .stored appendLog).2 true = .ok (g, con) ∧
      GraphSat.Oracle.exact.solve (MonoBCPolyGraphCheckerOptimized.check .stored g con) = true :=
  ⟨unique_appendLog, ⟨_, isolated_appendLog⟩,
    accepts_snapshotIsolated .stored .exact appendLog true unique_appendLog ⟨_, isolated_appendLog⟩⟩

end Main

end Append

end Viper
