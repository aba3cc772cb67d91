import Viper.AppendDecision
import Viper.AppendIsolation
import Viper.Lib.Interleaving
import Viper.Renumbering

/-!
# Interleavings of a list-append log

The lines of `history.edn` interleave what the processes have run. Another
interleaving gives the transactions other numbers, and nothing else: algorithm 8
accepts both logs or none.
-/
namespace Viper

open Py Chains Precedence Numbering

namespace Append

variable {κ ν : Type}

/-- Transaction `i` of one log is transaction `π i` of the other one. -/
structure Relabels (π : Equiv.Perm Nat) (lines lines' : List (LogTxn κ ν)) : Prop where
  first : π 0 = 0
  le : ∀ i, π i ≤ lines'.length ↔ i ≤ lines.length
  ops : ∀ i, opsOf lines' (π i) = opsOf lines i
  precedes : ∀ i j, Precedes lines' (π i) (π j) ↔ Precedes lines i j

section Relabelled

variable {π : Equiv.Perm Nat} {lines lines' : List (LogTxn κ ν)}

theorem Relabels.symm (h : Relabels π lines lines') : Relabels π.symm lines' lines where
  first := by
    have hback := π.symm_apply_apply 0
    rwa [h.first] at hback
  le i := by
    have hi := h.le (π.symm i)
    rw [π.apply_symm_apply] at hi
    exact hi.symm
  ops i := by
    have hi := h.ops (π.symm i)
    rw [π.apply_symm_apply] at hi
    exact hi.symm
  precedes i j := by
    have hij := h.precedes (π.symm i) (π.symm j)
    rw [π.apply_symm_apply, π.apply_symm_apply] at hij
    exact hij.symm

variable (h : Relabels π lines lines')
include h

theorem Relabels.appends (i : Nat) (k : κ) (x : ν) :
    Appends lines' (π i) k x ↔ Appends lines i k x := by
  rw [Appends, h.ops, Appends]

theorem Relabels.writes (k : κ) (i : Nat) : Writes lines' k (π i) ↔ Writes lines k i := by
  simp only [Writes, h.appends]

variable [LinearOrder κ]

theorem Relabels.reads (j : Nat) (k : κ) (xs : List ν) :
    Reads lines' (π j) k xs ↔ Reads lines j k xs := by
  rw [Reads, h.ops, Reads]

theorem Relabels.readsFrom (k : κ) (i j : Nat) :
    ReadsFrom lines' k (π i) (π j) ↔ ReadsFrom lines k i j := by
  simp only [ReadsFrom, h.reads, h.appends]

theorem Relabels.observed (k : κ) (a b : Nat) :
    Observed lines' k (π a) (π b) ↔ Observed lines k a b := by
  rw [Observed, π.surjective.exists]
  simp only [h.reads, h.appends, π.injective.ne_iff, Observed]

theorem Relabels.successor (k : κ) (a b : Nat) :
    Successor lines' k (π a) (π b) ↔ Successor lines k a b := by
  rw [Successor, Successor, h.writes, h.readsFrom, h.observed]

theorem Relabels.missed {j w : Nat} (hm : MissedAppend lines' (π j) (π w)) :
    MissedAppend lines j w := by
  cases hm with
  | unseen hr ha hy hne hlast =>
    apply MissedAppend.unseen ((h.reads j _ _).mp hr) ((h.appends w _ _).mp ha) hy
      fun he => hne (congrArg π he)
    intro z hz hw
    exact hlast z hz ((h.appends w _ z).mpr hw)
  | @extended k a hs hr hne =>
    obtain ⟨a, rfl⟩ := π.surjective a
    exact .extended ((h.successor k a w).mp hs) ((h.readsFrom k a j).mp hr)
      fun he => hne (congrArg π he)

theorem Relabels.stretch {k : κ} {a z : Nat}
    (hs : Stretch (Writes lines' k) (Successor lines' k) (π a) (π z)) :
    Stretch (Writes lines k) (Successor lines k) a z where
  start := (h.writes k a).mp hs.start
  first x hx := hs.first (π x) ((h.successor k x a).mpr hx)
  last y hy := hs.last (π y) ((h.successor k z y).mpr hy)
  path := by
    have hback : ∀ x y, Successor lines' k x y → Successor lines k (π.symm x) (π.symm y) := by
      intro x y hxy
      exact (h.symm.successor k x y).mpr hxy
    have hpath : Relation.ReflTransGen (Successor lines k) (π.symm (π a)) (π.symm (π z)) :=
      Relation.ReflTransGen.lift π.symm hback _ _ hs.path
    rwa [π.symm_apply_apply, π.symm_apply_apply] at hpath

/-- The order of the events goes along with the numbers. -/
theorem Relabels.explained [lo : LinearOrder Event] {strongSession : Bool}
    (hex : Explanation lines strongSession) :
    ∃ _ : LinearOrder Event, Explanation lines' strongSession := by
  obtain ⟨hbegins, hinitial, hsessions, hreads, hmissed, hrows⟩ := hex
  obtain ⟨along, hlt, _⟩ := Event.exists_order_along π
  refine ⟨along, ?_⟩
  constructor
  case begins =>
    intro i hi
    obtain ⟨i, rfl⟩ := π.surjective i
    exact (hlt (.s i) (.c i)).mpr (hbegins i ((h.le i).mp hi))
  case initial =>
    intro i h0 hi
    obtain ⟨i, rfl⟩ := π.surjective i
    rw [← h.first] at h0 ⊢
    have hne : i ≠ 0 := fun he => Nat.lt_irrefl _ (he ▸ h0)
    exact (hlt (.c 0) (.s i)).mpr (hinitial i (Nat.pos_of_ne_zero hne) ((h.le i).mp hi))
  case sessions =>
    intro hss i j hij
    obtain ⟨i, rfl⟩ := π.surjective i
    obtain ⟨j, rfl⟩ := π.surjective j
    exact (hlt (.c i) (.s j)).mpr (hsessions hss i j ((h.precedes i j).mp hij))
  case reads =>
    intro k i j hr
    obtain ⟨i, rfl⟩ := π.surjective i
    obtain ⟨j, rfl⟩ := π.surjective j
    exact (hlt (.c i) (.s j)).mpr (hreads k i j ((h.readsFrom k i j).mp hr))
  case missed =>
    intro j w hm
    obtain ⟨j, rfl⟩ := π.surjective j
    obtain ⟨w, rfl⟩ := π.surjective w
    exact (hlt (.s j) (.c w)).mpr (hmissed j w (h.missed hm))
  case rows =>
    intro k a z a' z' hrow hrow' hne
    obtain ⟨a, rfl⟩ := π.surjective a
    obtain ⟨z, rfl⟩ := π.surjective z
    obtain ⟨a', rfl⟩ := π.surjective a'
    obtain ⟨z', rfl⟩ := π.surjective z'
    have hoverwritten :
        ∀ t b, (lo.lt (.c t) (.s b) ∧ ∀ r, ReadsFrom lines k t r → lo.lt (.s r) (.c b)) →
        Overwritten lines' k (π t) (π b) := by
      intro t b hob
      refine ⟨(hlt (.c t) (.s b)).mpr hob.1, ?_⟩
      intro r hr
      obtain ⟨r, rfl⟩ := π.surjective r
      exact (hlt (.s r) (.c b)).mpr (hob.2 r ((h.readsFrom k t r).mp hr))
    exact (hrows k a z a' z' (h.stretch hrow) (h.stretch hrow') fun he => hne (congrArg π he)).imp
      (hoverwritten z a') (hoverwritten z' a)

theorem Relabels.explainable {strongSession : Bool} (he : Explainable lines strongSession) :
    Explainable lines' strongSession where
  sourced := by
    intro j k xs x hr hx
    obtain ⟨j, rfl⟩ := π.surjective j
    obtain ⟨a, ha⟩ := he.sourced j k xs x ((h.reads j k xs).mp hr) hx
    refine ⟨π a, ?_⟩
    intro i
    obtain ⟨i, rfl⟩ := π.surjective i
    rw [h.appends, ha, π.injective.eq_iff]
  successor := by
    intro k a b b' hb hb'
    obtain ⟨a, rfl⟩ := π.surjective a
    obtain ⟨b, rfl⟩ := π.surjective b
    obtain ⟨b', rfl⟩ := π.surjective b'
    exact congrArg π
      (he.successor k a b b' ((h.successor k a b).mp hb) ((h.successor k a b').mp hb'))
  predecessor := by
    intro k a a' b ha ha'
    obtain ⟨a, rfl⟩ := π.surjective a
    obtain ⟨a', rfl⟩ := π.surjective a'
    obtain ⟨b, rfl⟩ := π.surjective b
    exact congrArg π
      (he.predecessor k a a' b ((h.successor k a b).mp ha) ((h.successor k a' b).mp ha'))
  acyclic := by
    intro k
    apply (he.acyclic k).comap π.symm
    intro a b hab
    exact (h.symm.successor k a b).mpr hab
  explained := by
    obtain ⟨_, hex⟩ := he.explained
    exact h.explained hex

end Relabelled

section Exchanges

variable {l r : List (LogTxn κ ν)} {a b : LogTxn κ ν}

/-- Where a line stands after an exchange. -/
theorem getElem?_exchange (l r : List (LogTxn κ ν)) (a b : LogTxn κ ν) (m : Nat) :
    ∃ m', swapBlocks (l.length + 1) 1 1 (m + 1) = m' + 1 ∧
      (l ++ b :: a :: r)[m']? = (l ++ a :: b :: r)[m]? := by
  by_cases hlt : m < l.length
  · refine ⟨m, swapBlocks_other (.inl (by omega)), ?_⟩
    rw [List.getElem?_append_left hlt, List.getElem?_append_left hlt]
  · obtain ⟨d, rfl⟩ : ∃ d, m = l.length + d := ⟨m - l.length, by omega⟩
    rw [List.getElem?_append_right (by omega), Nat.add_sub_cancel_left]
    match d with
    | 0 =>
      refine ⟨l.length + 1, swapBlocks_first (i := 0) Nat.one_pos, ?_⟩
      rw [List.getElem?_append_right (by omega), Nat.add_sub_cancel_left]
      rfl
    | 1 =>
      refine ⟨l.length, swapBlocks_second (i := 0) Nat.one_pos, ?_⟩
      rw [List.getElem?_append_right (by omega), Nat.sub_self]
      rfl
    | d + 2 =>
      refine ⟨l.length + (d + 2), swapBlocks_other (.inr (by omega)), ?_⟩
      rw [List.getElem?_append_right (by omega), Nat.add_sub_cancel_left]
      rfl

theorem opsOf_exchange (i : Nat) :
    opsOf (l ++ b :: a :: r) (swapBlocks (l.length + 1) 1 1 i) = opsOf (l ++ a :: b :: r) i := by
  cases i with
  | zero =>
    rw [swapBlocks_other (.inl (by omega))]
    rfl
  | succ m =>
    obtain ⟨m', hm', hget⟩ := getElem?_exchange l r a b m
    rw [hm', opsOf, opsOf, hget]

theorem processOf_exchange (i : Nat) :
    processOf (l ++ b :: a :: r) (swapBlocks (l.length + 1) 1 1 i) =
      processOf (l ++ a :: b :: r) i := by
  cases i with
  | zero =>
    rw [swapBlocks_other (.inl (by omega))]
    rfl
  | succ m =>
    obtain ⟨m', hm', hget⟩ := getElem?_exchange l r a b m
    rw [hm', processOf, processOf, hget]

/-- Only the two lines that change places change their order. -/
theorem swapBlocks_lt {n i j : Nat} (hlt : i < j) (hne : ¬ (i = n ∧ j = n + 1)) :
    swapBlocks n 1 1 i < swapBlocks n 1 1 j := by
  simp only [swapBlocks, Equiv.coe_fn_mk]
  split <;> split <;> grind

theorem swapBlocks_le {n i m : Nat} (hn : n + 1 ≤ m) : swapBlocks n 1 1 i ≤ m ↔ i ≤ m := by
  simp only [swapBlocks, Equiv.coe_fn_mk]
  split
  · omega
  · split <;> omega

/-- An exchange of lines of two processes relabels the transactions. -/
theorem relabels_exchange (hne : a.process ≠ b.process) :
    Relabels (swapBlocks (l.length + 1) 1 1) (l ++ a :: b :: r) (l ++ b :: a :: r) where
  first := swapBlocks_other (.inl (Nat.succ_pos _))
  le i := by
    simp only [List.length_append, List.length_cons]
    exact swapBlocks_le (by omega)
  ops := opsOf_exchange
  precedes := by
    have hkeep : ∀ {i j p}, processOf (l ++ a :: b :: r) i = some p →
        processOf (l ++ a :: b :: r) j = some p → i < j →
        swapBlocks (l.length + 1) 1 1 i < swapBlocks (l.length + 1) 1 1 j := by
      intro i j p hi hj hlt
      apply swapBlocks_lt hlt
      intro hij
      obtain ⟨rfl, rfl⟩ := hij
      simp only [processOf, List.getElem?_append_right (Nat.le_refl _), Nat.sub_self,
        List.getElem?_append_right (Nat.le_add_right l.length 1), Nat.add_sub_cancel_left,
        List.getElem?_cons_zero, List.getElem?_cons_succ, Option.map_some] at hi hj
      exact hne (Option.some.inj (hi.trans hj.symm))
    intro i j
    simp only [Precedes, processOf_exchange]
    constructor
    · intro h
      obtain ⟨hlt, p, hi, hj⟩ := h
      refine ⟨?_, p, hi, hj⟩
      by_contra hno
      cases Nat.lt_or_eq_of_le (Nat.le_of_not_lt hno) with
      | inl hji => exact Nat.lt_asymm hlt (hkeep hj hi hji)
      | inr he => exact Nat.lt_irrefl _ (he ▸ hlt)
    · intro h
      obtain ⟨hlt, p, hi, hj⟩ := h
      exact ⟨hkeep hi hj hlt, p, hi, hj⟩

theorem explainable_exchange [LinearOrder κ] (strongSession : Bool)
    (lines lines' : List (LogTxn κ ν)) (h : Interleaving.Exchange LogTxn.process lines lines') :
    Explainable lines strongSession ↔ Explainable lines' strongSession := by
  cases h with
  | @swap l r a b hne =>
    have hrelabels := relabels_exchange (l := l) (r := r) hne
    exact ⟨hrelabels.explainable, hrelabels.symm.explainable⟩

end Exchanges

section Main

variable [LinearOrder κ] [DecidableEq ν] [ToString κ]

/-- Algorithm 8 accepts a log if and only if it accepts every log in which the processes
have run the same transactions, in the same order each. -/
theorem algo8_interleaving (o o' : SetOrder) (monosat monosat' : GraphSat.Oracle)
    (lines lines' : List (LogTxn κ ν)) (strongSession : Bool)
    (h : ∀ process, Interleaving.sequenceOf LogTxn.process process lines =
      Interleaving.sequenceOf LogTxn.process process lines') :
    ∃ enough, ∀ fuel, enough ≤ fuel → ∃ r r', algo8 fuel o monosat lines strongSession = some r ∧
      algo8 fuel o' monosat' lines' strongSession = some r' ∧ (r = .ok true ↔ r' = .ok true) := by
  obtain ⟨enough, hfive⟩ := algo8_eq o monosat lines strongSession
  obtain ⟨enough', hfive'⟩ := algo8_eq o' monosat' lines' strongSession
  refine ⟨max enough enough', ?_⟩
  intro fuel hf
  refine ⟨_, _, hfive fuel (le_trans (le_max_left _ _) hf),
    hfive' fuel (le_trans (le_max_right _ _) hf), ?_⟩
  rw [mainAlgo35_append_iff, mainAlgo35_append_iff]
  exact Interleaving.iff_of_sequences (explainable_exchange strongSession) h

/-- The reader's line before the line of the second appender. -/
def readerFirst : List (LogTxn Nat Nat) :=
  [⟨1, [.append 1 10, .append 1 11]⟩, ⟨1, [.r 1 (some [10, 11, 12]), .r 2 none]⟩,
    ⟨2, [.r 1 (some [10, 11]), .append 1 12]⟩]

theorem sequences_readerFirst (process : Nat) :
    Interleaving.sequenceOf LogTxn.process process appendLog =
    Interleaving.sequenceOf LogTxn.process process readerFirst := by
  by_cases h₁ : 1 = process
  · subst h₁
    rfl
  · by_cases h₂ : 2 = process
    · subst h₂
      rfl
    · simp [Interleaving.sequenceOf, appendLog, readerFirst, h₁, h₂]

theorem algo8_interleaving_readerFirst : ∃ enough, ∀ fuel, enough ≤ fuel → ∃ r r',
    algo8 fuel .stored .exact appendLog true = some r ∧
    algo8 fuel .stored .exact readerFirst true = some r' ∧
      (r = .ok true ↔ r' = .ok true) :=
  algo8_interleaving .stored .stored .exact .exact appendLog readerFirst true sequences_readerFirst

end Main

end Append

end Viper
