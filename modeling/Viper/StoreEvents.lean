import Viper.Lib.Precedence
import Viper.Lib.SnapshotStore
import Viper.Graphs

/-!
# The begins and commits of a store

The commits of a run order the events of its transactions: a commit comes before
the begins whose snapshots hold it and after the others. Transaction 0 stands for
whatever wrote the initial state.
-/
namespace Viper

open SnapshotStore

variable {κ ν ω σ : Type} {C : Client κ ν ω σ} {init : κ → Option ν} {prior : Nat → Nat → Prop}
  {log : List (Txn Nat ω σ)} {t u : Txn Nat ω σ} {p q : Nat}

/-- The place of a commit. -/
def position (log : List (Txn Nat ω σ)) (i : Nat) : Nat := (log.map Txn.name).idxOf i

/-- When transactions begin and commit. -/
def eventTime (log : List (Txn Nat ω σ)) : Event → Nat
  | .s 0 => 0
  | .c 0 => 1
  | .s (i + 1) => 2 * (log[position log (i + 1)]?).elim 0 Txn.snapshot + 2
  | .c (i + 1) => 2 * position log (i + 1) + 3

theorem position_eq (hn : (log.map Txn.name).Nodup) (ht : log[p]? = some t) :
    position log t.name = p := by
  have hp : (log.map Txn.name)[p]? = some t.name := by
    rw [List.getElem?_map, ht]
    rfl
  have hlt := (List.getElem?_eq_some_iff.mp hp).1
  have hsame := (List.getElem?_idxOf (List.mem_of_getElem? hp)).trans hp.symm
  exact ((List.getElem?_inj hlt hn).mp hsame.symm).symm

theorem eventTime_s (hn : (log.map Txn.name).Nodup) (ht : log[p]? = some t) (h0 : 0 < t.name) :
    eventTime log (.s t.name) = 2 * t.snapshot + 2 := by
  have hp := position_eq hn ht
  obtain ⟨i, hi⟩ := Nat.exists_eq_succ_of_ne_zero (Nat.ne_of_gt h0)
  rw [hi] at hp ⊢
  rw [eventTime, hp, ht]
  rfl

theorem eventTime_c (hn : (log.map Txn.name).Nodup) (ht : log[p]? = some t) (h0 : 0 < t.name) :
    eventTime log (.c t.name) = 2 * p + 3 := by
  have hp := position_eq hn ht
  obtain ⟨i, hi⟩ := Nat.exists_eq_succ_of_ne_zero (Nat.ne_of_gt h0)
  rw [hi] at hp ⊢
  rw [eventTime, hp]

/-- An order of the events that agrees with the commits. -/
structure Follows [LinearOrder Event] (log : List (Txn Nat ω σ)) : Prop where
  zero : Event.s 0 < Event.c 0
  first : ∀ t ∈ log, Event.c 0 < Event.s t.name
  seen : ∀ {p q : Nat} {t u : Txn Nat ω σ}, log[p]? = some t → log[q]? = some u → p < u.snapshot →
    Event.c t.name < Event.s u.name
  missed : ∀ {p q : Nat} {t u : Txn Nat ω σ}, log[p]? = some t → log[q]? = some u → u.snapshot ≤ p →
    Event.s u.name < Event.c t.name
  commits : ∀ {p q : Nat} {t u : Txn Nat ω σ}, log[p]? = some t → log[q]? = some u → p < q →
    Event.c t.name < Event.c u.name

theorem exists_follows (hn : (log.map Txn.name).Nodup) (hpos : ∀ t ∈ log, 0 < t.name) :
    ∃ _ : LinearOrder Event, Follows log := by
  have hacyclic : Precedence.Acyclic (fun a b => eventTime log a < eventTime log b) :=
    Precedence.acyclic_of_map (eventTime log) fun _ _ hab => hab
  obtain ⟨hlin, hlt⟩ := Precedence.acyclic_iff_linearOrder.mp hacyclic
  have hs : ∀ {p : Nat} {t : Txn Nat ω σ}, log[p]? = some t →
    eventTime log (.s t.name) = 2 * t.snapshot + 2 :=
    fun ht => eventTime_s hn ht (hpos _ (List.mem_of_getElem? ht))
  have hc : ∀ {p : Nat} {t : Txn Nat ω σ}, log[p]? = some t →
    eventTime log (.c t.name) = 2 * p + 3 :=
    fun ht => eventTime_c hn ht (hpos _ (List.mem_of_getElem? ht))
  refine ⟨hlin, hlt _ _ Nat.one_pos, ?_, ?_, ?_, ?_⟩
  · intro t ht
    obtain ⟨p, hp⟩ := List.getElem?_of_mem ht
    apply hlt
    rw [hs hp]
    exact Nat.succ_lt_succ (Nat.succ_pos _)
  · intro p q t u ht hu hlt'
    apply hlt
    rw [hc ht, hs hu]
    omega
  · intro p q t u ht hu hle
    apply hlt
    rw [hc ht, hs hu]
    omega
  · intro p q t u ht hu hlt'
    apply hlt
    rw [hc ht, hc hu]
    omega

namespace Follows

variable [LinearOrder Event]

theorem begins (h : Follows log) (hv : Valid C init prior log) (ht : log[p]? = some t) :
    Event.s t.name < Event.c t.name := h.missed ht ht (hv.before p t ht)

theorem not_seen (h : Follows log) (ht : log[p]? = some t) (hu : log[q]? = some u)
    (hle : u.snapshot ≤ p) :
    ¬ Event.c t.name < Event.s u.name := lt_asymm (h.missed ht hu hle)

theorem lt_snapshot (h : Follows log) (ht : log[p]? = some t) (hu : log[q]? = some u)
    (hlt : Event.c t.name < Event.s u.name) : p < u.snapshot :=
  Nat.lt_of_not_le fun hle => h.not_seen ht hu hle hlt

theorem le_of_position_le (h : Follows log) (ht : log[p]? = some t) (hu : log[q]? = some u)
    (hle : p ≤ q) :
    Event.c t.name ≤ Event.c u.name := by
  cases Nat.lt_or_eq_of_le hle with
  | inl hlt => exact (h.commits ht hu hlt).le
  | inr he =>
    subst he
    rw [ht] at hu
    cases hu
    exact le_rfl

/-- Two commits that write a key do not overlap. -/
theorem apart (h : Follows log) (hv : Valid C init prior log) (ht : log[p]? = some t)
    (hu : log[q]? = some u)
    (hne : t.name ≠ u.name) {k : κ} (hwt : C.writes t.state k ≠ none)
    (hwu : C.writes u.state k ≠ none) :
    Event.c t.name < Event.s u.name ∨ Event.c u.name < Event.s t.name := by
  have hlater : ∀ {p q : Nat} {t u : Txn Nat ω σ}, log[p]? = some t → log[q]? = some u → p < q →
      C.writes t.state k ≠ none → C.writes u.state k ≠ none → Event.c t.name < Event.s u.name := by
    intro p q t u ht hu hlt hwt hwu
    apply h.seen ht hu
    by_contra hle
    cases hv.apart q p u t hu ht (Nat.le_of_not_lt hle) hlt k with
    | inl hnone => exact hwt hnone
    | inr hnone => exact hwu hnone
  cases Nat.lt_trichotomy p q with
  | inl hlt => exact .inl (hlater ht hu hlt hwt hwu)
  | inr hrest =>
    cases hrest with
    | inl he =>
      subst he
      rw [ht] at hu
      cases hu
      exact absurd rfl hne
    | inr hlt => exact .inr (hlater hu ht hlt hwu hwt)

theorem waits (h : Follows log) (hv : Valid C init prior log) (hu : log[q]? = some u) {i : Nat}
    (hi : prior i u.name) :
    Event.c i < Event.s u.name := by
  obtain ⟨t, hm, rfl⟩ := (hv.begun u (List.mem_of_getElem? hu)).prior i hi
  obtain ⟨p, hp⟩ := List.getElem?_of_mem hm
  have hlen := (List.getElem?_eq_some_iff.mp hp).1
  rw [List.length_take] at hlen
  have hlt : p < u.snapshot := Nat.lt_of_lt_of_le hlen (Nat.min_le_left _ _)
  rw [List.getElem?_take_of_lt hlt] at hp
  exact h.seen hp hu hlt

end Follows

/-- The transactions in the order of their commits. -/
theorem exists_commitOrder [LinearOrder Event] (n : Nat) :
    ∃ ids : List Nat, (∀ i, i ∈ ids ↔ 0 < i ∧ i ≤ n) ∧
    ids.Pairwise fun i j => Event.c i < Event.c j := by
  obtain ⟨ids, hperm, hsorted⟩ := exists_sorted (c := Event.c) (fun i j he => Event.c.inj he)
    (List.nodup_range' (s := 1) (n := n))
  refine ⟨ids, ?_, hsorted⟩
  intro i
  rw [hperm.mem_iff, List.mem_range'_1]
  omega

end Viper
