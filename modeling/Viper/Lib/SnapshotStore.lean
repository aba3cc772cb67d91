import Mathlib.Data.List.Induction
import Mathlib.Data.List.Nodup
import Mathlib.Data.List.Perm.Basic
import Mathlib.Data.List.Sort
import Mathlib.Logic.Relation
import Mathlib.Order.Basic

/-!
# A store with snapshot isolation

A transaction reads from the commits before its begin and from its own writes. It
commits unless another transaction has committed a write to one of its keys since it
began. The commits of the runs are characterized without the runs.
-/
namespace SnapshotStore

variable {τ κ ν ω σ : Type}

/-- What transactions do: operations against a snapshot change a state of their own,
which says in the end what they write. -/
structure Client (κ ν ω σ : Type) where
  start : σ
  step : (κ → Option ν) → σ → ω → σ → Prop
  writes : σ → κ → Option ν

/-- A transaction, with the number of commits before its begin. -/
structure Txn (τ ω σ : Type) where
  name : τ
  snapshot : Nat
  ops : List ω
  state : σ

/-- The commits in their order, and the transactions still running. -/
structure State (τ ω σ : Type) where
  log : List (Txn τ ω σ)
  running : List (Txn τ ω σ)

section Definitions

variable (C : Client κ ν ω σ) (init : κ → Option ν) (prior : τ → τ → Prop)

def overwrite (S : κ → Option ν) (t : Txn τ ω σ) (k : κ) : Option ν := (C.writes t.state k).or (S k)

/-- What the store holds after some commits. -/
def view (log : List (Txn τ ω σ)) : κ → Option ν := log.foldl (overwrite C) init

/-- Operations one after the other against a fixed snapshot. -/
inductive Runs (S : κ → Option ν) : σ → List ω → σ → Prop
  | nil {s} : Runs S s [] s
  | cons {s s' s'' op ops} : C.step S s op s' → Runs S s' ops s'' → Runs S s (op :: ops) s''

/-- No key is written by both. -/
def Apart (t u : Txn τ ω σ) : Prop := ∀ k, C.writes t.state k = none ∨ C.writes u.state k = none

/-- One step of the store. A transaction waits for those that come before it by `prior`. -/
inductive Step : State τ ω σ → State τ ω σ → Prop
  | begin {log running name} : (∀ t ∈ log ++ running, t.name ≠ name) →
      (∀ u, prior u name → ∃ t ∈ log, t.name = u) →
    Step ⟨log, running⟩ ⟨log, ⟨name, log.length, [], C.start⟩ :: running⟩
  | perform {log l r t op s} : C.step (view C init (log.take t.snapshot)) t.state op s →
    Step ⟨log, l ++ t :: r⟩ ⟨log, l ++ ⟨t.name, t.snapshot, t.ops ++ [op], s⟩ :: r⟩
  | commit {log l r t} : (∀ u ∈ log.drop t.snapshot, Apart C u t) →
    Step ⟨log, l ++ t :: r⟩ ⟨log ++ [t], l ++ r⟩
  | abort {log l r t} : Step ⟨log, l ++ t :: r⟩ ⟨log, l ++ r⟩

/-- The states after any steps of any transactions, in whatever order. -/
def Reachable (st : State τ ω σ) : Prop := Relation.ReflTransGen (Step C init prior) ⟨[], []⟩ st

/-- What a transaction has done so far, it has done against its snapshot. -/
structure Begun (log : List (Txn τ ω σ)) (t : Txn τ ω σ) : Prop where
  le : t.snapshot ≤ log.length
  runs : Runs C (view C init (log.take t.snapshot)) C.start t.ops t.state
  prior : ∀ u, prior u t.name → ∃ t' ∈ log.take t.snapshot, t'.name = u

/-- The commits of a run, without the run. -/
structure Valid (log : List (Txn τ ω σ)) : Prop where
  names : (log.map Txn.name).Nodup
  begun : ∀ t ∈ log, Begun C init prior log t
  before : ∀ (i : Nat) (t : Txn τ ω σ), log[i]? = some t → t.snapshot ≤ i
  apart : ∀ (i j : Nat) (t u : Txn τ ω σ), log[i]? = some t → log[j]? = some u → t.snapshot ≤ j →
    j < i → Apart C u t

structure Inv (st : State τ ω σ) : Prop where
  names : ((st.log ++ st.running).map Txn.name).Nodup
  valid : Valid C init prior st.log
  running : ∀ t ∈ st.running, Begun C init prior st.log t

end Definitions

variable {C : Client κ ν ω σ} {init : κ → Option ν} {prior : τ → τ → Prop}

section Views

variable {log l r : List (Txn τ ω σ)} {t : Txn τ ω σ} {k : κ} {v : ν}

theorem view_append (l₁ l₂ : List (Txn τ ω σ)) :
    view C init (l₁ ++ l₂) = view C (view C init l₁) l₂ :=
  List.foldl_append

theorem view_untouched (h : ∀ u ∈ log, C.writes u.state k = none) : view C init log k = init k := by
  induction log generalizing init with
  | nil => rfl
  | cons t log ih =>
    have hrest : view C (overwrite C init t) log k = overwrite C init t k :=
      ih fun u hu => h u (List.mem_cons_of_mem t hu)
    apply hrest.trans
    rw [overwrite, h t List.mem_cons_self, Option.none_or]

theorem view_last (hw : C.writes t.state k = some v) (h : ∀ u ∈ r, C.writes u.state k = none) :
    view C init (l ++ t :: r) k = some v := by
  rw [view_append]
  have hrest : view C (overwrite C (view C init l) t) r k = overwrite C (view C init l) t k :=
    view_untouched h
  apply hrest.trans
  rw [overwrite, hw, Option.some_or]

variable (init) in
/-- What is stored at a key is what the last commit to it has written, if there is one. -/
theorem view_cases (log : List (Txn τ ω σ)) (k : κ) :
    (∃ l₁ t l₂ v, log = l₁ ++ t :: l₂ ∧ C.writes t.state k = some v ∧
      (∀ u ∈ l₂, C.writes u.state k = none) ∧
      view C init log k = some v) ∨
    ((∀ u ∈ log, C.writes u.state k = none) ∧ view C init log k = init k) := by
  induction log using List.reverseRecOn with
  | nil => exact .inr ⟨nofun, rfl⟩
  | append_singleton log t ih =>
    cases hw : C.writes t.state k with
    | some v => exact .inl ⟨log, t, [], v, rfl, hw, nofun, view_last hw nofun⟩
    | none =>
      have hsame : view C init (log ++ [t]) k = view C init log k := by
        rw [view_append]
        exact view_untouched fun u hu => List.mem_singleton.mp hu ▸ hw
      cases ih with
      | inl h =>
        obtain ⟨l₁, t', l₂, v, rfl, hv, hno, hview⟩ := h
        refine .inl ⟨l₁, t', l₂ ++ [t], v, by simp, hv, ?_, hsame.trans hview⟩
        intro u hu
        cases List.mem_append.mp hu with
        | inl hu => exact hno u hu
        | inr hu => exact List.mem_singleton.mp hu ▸ hw
      | inr h =>
        refine .inr ⟨?_, hsame.trans h.2⟩
        intro u hu
        cases List.mem_append.mp hu with
        | inl hu => exact h.1 u hu
        | inr hu => exact List.mem_singleton.mp hu ▸ hw

theorem untouched_of_none (h : view C init log k = none) :
    ∀ u ∈ log, C.writes u.state k = none := by
  cases view_cases init log k with
  | inl hlast =>
    obtain ⟨_, _, _, v, _, _, _, hv⟩ := hlast
    cases h.symm.trans hv
  | inr hnone => exact hnone.1

end Views

section Running

variable {S : κ → Option ν} {s s' s'' : σ} {ops ops' : List ω}

theorem Runs.append (h : Runs C S s ops s') (h' : Runs C S s' ops' s'') :
    Runs C S s (ops ++ ops') s'' := by
  induction h with
  | nil => exact h'
  | cons hstep _ ih => exact .cons hstep (ih h')

theorem Runs.split (h : Runs C S s (ops ++ ops') s'') :
    ∃ s', Runs C S s ops s' ∧ Runs C S s' ops' s'' := by
  induction ops generalizing s with
  | nil => exact ⟨s, .nil, h⟩
  | cons op ops ih =>
    cases h with
    | cons hstep h =>
      obtain ⟨s', h₁, h₂⟩ := ih h
      exact ⟨s', .cons hstep h₁, h₂⟩

/-- Every operation was a step from where the operations before it had led to. -/
theorem Runs.at (h : Runs C S s ops s') {m : Nat} {op : ω} (hm : ops[m]? = some op) :
    ∃ s₁ s₂, Runs C S s (ops.take m) s₁ ∧ C.step S s₁ op s₂ := by
  induction h generalizing m with
  | nil => cases hm
  | @cons s s₁ s₂ op' ops hstep _ ih =>
    cases m with
    | zero =>
      cases hm
      exact ⟨s, s₁, .nil, hstep⟩
    | succ m =>
      obtain ⟨s₃, s₄, hruns, hlast⟩ := ih hm
      exact ⟨s₃, s₄, .cons hstep hruns, hlast⟩

end Running

section Safety

variable {log : List (Txn τ ω σ)} {t : Txn τ ω σ} {st st' : State τ ω σ}

theorem Begun.append (h : Begun C init prior log t) (l : List (Txn τ ω σ)) :
    Begun C init prior (log ++ l) t where
  le := by
    rw [List.length_append]
    exact Nat.le_add_right_of_le h.le
  runs := by
    rw [List.take_append_of_le_length h.le]
    exact h.runs
  prior := by
    rw [List.take_append_of_le_length h.le]
    exact h.prior

/-- Commits after the snapshot do not matter. -/
theorem Begun.take {m : Nat} (h : Begun C init prior log t) (hle : t.snapshot ≤ m)
    (hm : m ≤ log.length) :
    Begun C init prior (log.take m) t := by
  have htake : (log.take m).take t.snapshot = log.take t.snapshot := by
    rw [List.take_take, Nat.min_eq_left hle]
  constructor
  · rw [List.length_take]
    omega
  · rw [htake]
    exact h.runs
  · rw [htake]
    exact h.prior

/-- A commit that passes the check keeps the log valid. -/
theorem Valid.concat (h : Valid C init prior log) (hnew : ∀ u ∈ log, u.name ≠ t.name)
    (ht : Begun C init prior log t)
    (hapart : ∀ u ∈ log.drop t.snapshot, Apart C u t) : Valid C init prior (log ++ [t]) where
  names := by
    rw [List.map_append, List.map_singleton, List.nodup_append]
    refine ⟨h.names, List.nodup_singleton _, ?_⟩
    intro a ha b hb
    obtain ⟨u, hu, rfl⟩ := List.mem_map.mp ha
    rw [List.mem_singleton.mp hb]
    exact hnew u hu
  begun u hu := by
    cases List.mem_append.mp hu with
    | inl hu => exact (h.begun u hu).append [t]
    | inr hu =>
      rw [List.mem_singleton.mp hu]
      exact ht.append [t]
  before i u hi := by
    by_cases hil : i < log.length
    · exact h.before i u ((List.getElem?_append_left hil).symm.trans hi)
    · have hlt := (List.getElem?_eq_some_iff.mp hi).1
      rw [List.length_append, List.length_singleton] at hlt
      obtain rfl : i = log.length := by omega
      rw [List.getElem?_concat_length] at hi
      cases hi
      exact ht.le
  apart i j u w hi hj hle hlt := by
    have hjl : j < log.length := by
      have hil := (List.getElem?_eq_some_iff.mp hi).1
      rw [List.length_append, List.length_singleton] at hil
      omega
    rw [List.getElem?_append_left hjl] at hj
    by_cases hil : i < log.length
    · exact h.apart i j u w ((List.getElem?_append_left hil).symm.trans hi) hj hle hlt
    · have hi' := (List.getElem?_eq_some_iff.mp hi).1
      rw [List.length_append, List.length_singleton] at hi'
      obtain rfl : i = log.length := by omega
      rw [List.getElem?_concat_length] at hi
      cases hi
      exact hapart w (List.mem_of_getElem? (i := j - t.snapshot)
        (by rw [List.getElem?_drop, Nat.add_sub_cancel' hle, hj]))

theorem inv_start : Inv C init prior ⟨[], []⟩ where
  names := List.nodup_nil
  valid := ⟨List.nodup_nil, nofun, nofun, nofun⟩
  running := nofun

/-- Every step keeps the invariant. -/
theorem Inv.step (h : Inv C init prior st) (hs : Step C init prior st st') :
    Inv C init prior st' := by
  cases hs with
  | @begin log running name hnew hprior =>
    refine ⟨?_, h.valid, ?_⟩
    · have hperm : ((log ++ ⟨name, log.length, [], C.start⟩ :: running).map Txn.name).Perm
          (name :: (log ++ running).map Txn.name) := List.perm_middle.map Txn.name
      refine hperm.nodup_iff.mpr (List.nodup_cons.mpr ⟨?_, h.names⟩)
      intro hm
      obtain ⟨t, ht, he⟩ := List.mem_map.mp hm
      exact hnew t ht he
    · intro t ht
      cases List.mem_cons.mp ht with
      | inl he =>
        subst he
        exact ⟨Nat.le_refl _, .nil, by rw [List.take_length]; exact hprior⟩
      | inr hm => exact h.running t hm
  | @perform log l₁ l₂ t op s hstep =>
    have ht := h.running t (List.mem_append_right l₁ List.mem_cons_self)
    refine ⟨?_, h.valid, ?_⟩
    · have hnames := h.names
      simp only [List.map_append, List.map_cons] at hnames ⊢
      exact hnames
    · intro u hu
      cases List.mem_append.mp hu with
      | inl hm => exact h.running u (List.mem_append_left _ hm)
      | inr hm =>
        cases List.mem_cons.mp hm with
        | inl he =>
          subst he
          exact ⟨ht.le, ht.runs.append (.cons hstep .nil), ht.prior⟩
        | inr hm => exact h.running u (List.mem_append_right l₁ (List.mem_cons_of_mem t hm))
  | @commit log l₁ l₂ t hapart =>
    have ht := h.running t (List.mem_append_right l₁ List.mem_cons_self)
    have hperm : (log ++ (l₁ ++ t :: l₂)).Perm (log ++ [t] ++ (l₁ ++ l₂)) := by
      rw [List.append_assoc, List.singleton_append]
      exact List.perm_middle.append_left log
    have hnames := (hperm.map Txn.name).nodup_iff.mp h.names
    refine ⟨hnames, h.valid.concat ?_ ht hapart, ?_⟩
    · intro u hu he
      rw [List.map_append, List.map_append, List.nodup_append] at hnames
      have hlog := (List.nodup_append.mp hnames.1).2.2
      exact hlog _ (List.mem_map_of_mem hu) _ (List.mem_map_of_mem (List.mem_singleton.mpr rfl)) he
    · intro u hu
      have hmem : u ∈ l₁ ++ t :: l₂ := by
        rw [List.mem_append, List.mem_cons]
        exact (List.mem_append.mp hu).imp_right .inr
      exact (h.running u hmem).append [t]
  | @abort log l₁ l₂ t =>
    have hsub : (l₁ ++ l₂).Sublist (l₁ ++ t :: l₂) := (List.sublist_cons_self t l₂).append_left l₁
    exact ⟨h.names.sublist ((hsub.append_left log).map Txn.name), h.valid,
      fun u hu => h.running u (hsub.subset hu)⟩

theorem Reachable.inv (h : Reachable C init prior st) : Inv C init prior st := by
  induction h with
  | refl => exact inv_start
  | tail _ hs ih => exact ih.step hs

end Safety

section Runs

variable {log running : List (Txn τ ω σ)}

/-- A running transaction performs one operation after the other. -/
theorem Reachable.perform {name : τ} {n : Nat} {ops ops' : List ω} {s s' : σ}
    (h : Reachable C init prior ⟨log, ⟨name, n, ops, s⟩ :: running⟩)
    (hruns : Runs C (view C init (log.take n)) s ops' s') :
    Reachable C init prior ⟨log, ⟨name, n, ops ++ ops', s'⟩ :: running⟩ := by
  induction hruns generalizing ops with
  | nil => rwa [List.append_nil]
  | @cons s₁ s₂ s₃ op ops' hstep _ ih =>
    have hnext : Reachable C init prior ⟨log, ⟨name, n, ops ++ [op], s₂⟩ :: running⟩ :=
      h.tail (Step.perform (l := []) hstep)
    have hrest := ih hnext
    rwa [List.append_assoc] at hrest

/-- New transactions begin one after the other, and perform all their operations. -/
theorem Reachable.begin {l : List (Txn τ ω σ)} (h : Reachable C init prior ⟨log, running⟩)
    (hnames : ((log ++ (l ++ running)).map Txn.name).Nodup)
    (hnew : ∀ t ∈ l, t.snapshot = log.length ∧ Begun C init prior log t) :
    Reachable C init prior ⟨log, l ++ running⟩ := by
  induction l with
  | nil => exact h
  | cons t l ih =>
    obtain ⟨hsnapshot, ht⟩ := hnew t List.mem_cons_self
    have hperm : ((log ++ (t :: l ++ running)).map Txn.name).Perm
      (t.name :: (log ++ (l ++ running)).map Txn.name) :=
      List.perm_middle.map Txn.name
    obtain ⟨hfresh, hrest⟩ := List.nodup_cons.mp (hperm.nodup_iff.mp hnames)
    have hbegin : Step C init prior ⟨log, l ++ running⟩
        ⟨log, ⟨t.name, log.length, [], C.start⟩ :: (l ++ running)⟩ := by
      apply Step.begin
      · intro u hu he
        exact hfresh (he ▸ List.mem_map_of_mem hu)
      · intro u hu
        have hprior := ht.prior u hu
        rwa [hsnapshot, List.take_length] at hprior
    have hstarted := (ih hrest fun u hu => hnew u (List.mem_cons_of_mem t hu)).tail hbegin
    have hruns := ht.runs
    rw [hsnapshot] at hruns
    have hdone := Reachable.perform hstarted hruns
    rw [← hsnapshot] at hdone
    exact hdone

theorem filter_snapshot_perm (l : List (Txn τ ω σ)) (m : Nat) :
    (l.filter (fun t => t.snapshot = m) ++ l.filter (fun t => t.snapshot < m)).Perm
      (l.filter (fun t => t.snapshot < m + 1)) := by
  have h := List.filter_append_perm (fun t : Txn τ ω σ => decide (t.snapshot = m))
    (l.filter (fun t => t.snapshot < m + 1))
  rw [List.filter_filter, List.filter_filter] at h
  have h₁ : ∀ t ∈ l, (decide (t.snapshot = m) && decide (t.snapshot < m + 1)) =
      decide (t.snapshot = m) := by
    intro t _
    rw [Bool.eq_iff_iff]
    simp
    omega
  have h₂ : ∀ t ∈ l, (!decide (t.snapshot = m) && decide (t.snapshot < m + 1)) =
      decide (t.snapshot < m) := by
    intro t _
    rw [Bool.eq_iff_iff]
    simp
    omega
  rwa [List.filter_congr h₁, List.filter_congr h₂] at h

/-- The first `m` commits, with the transactions running that began before the `m`-th
and commit later. -/
theorem Valid.reachable_take (h : Valid C init prior log) (m : Nat) (hm : m ≤ log.length) :
    ∃ running : List (Txn τ ω σ), running.Perm ((log.drop m).filter (fun t => t.snapshot < m)) ∧
      Reachable C init prior ⟨log.take m, running⟩ := by
  induction m with
  | zero => exact ⟨[], by simp, .refl⟩
  | succ m ih =>
    obtain ⟨running, hrunning, hreach⟩ := ih (Nat.le_of_succ_le hm)
    have hlength : (log.take m).length = m := by
      rw [List.length_take]
      omega
    -- those with snapshot `m` begin
    have hall : ((log.drop m).filter (fun t => t.snapshot = m) ++ running).Perm
        ((log.drop m).filter (fun t => t.snapshot < m + 1)) :=
      (hrunning.append_left _).trans (filter_snapshot_perm (log.drop m) m)
    have hbegun := Reachable.begin (l := (log.drop m).filter (fun t => t.snapshot = m)) hreach ?_ ?_
    · -- and the next one commits
      obtain ⟨t, ht⟩ : ∃ t, t = log[m] := ⟨_, rfl⟩
      have hget : log[m]? = some t := ht ▸ List.getElem?_eq_getElem hm
      have hnext : (log.drop m).filter (fun t => t.snapshot < m + 1) =
          t :: (log.drop (m + 1)).filter (fun t => t.snapshot < m + 1) := by
        rw [List.drop_eq_getElem_cons hm, ← ht]
        exact List.filter_cons_of_pos (decide_eq_true (Nat.lt_succ_of_le (h.before m t hget)))
      rw [hnext] at hall
      obtain ⟨l₁, l₂, hsplit⟩ := List.append_of_mem (hall.mem_iff.mpr List.mem_cons_self)
      rw [hsplit] at hall hbegun
      refine ⟨l₁ ++ l₂, (List.perm_middle.symm.trans hall).cons_inv, ?_⟩
      have hcommit : Step C init prior ⟨log.take m, l₁ ++ t :: l₂⟩
          ⟨log.take m ++ [t], l₁ ++ l₂⟩ := by
        apply Step.commit
        intro u hu
        obtain ⟨j, hj⟩ := List.getElem?_of_mem hu
        rw [List.getElem?_drop] at hj
        have hlt := (List.getElem?_eq_some_iff.mp hj).1
        rw [hlength] at hlt
        rw [List.getElem?_take_of_lt hlt] at hj
        exact h.apart m _ t u hget hj (Nat.le_add_right _ _) hlt
      have htake : log.take m ++ [t] = log.take (m + 1) := by
        rw [List.take_add_one, hget]
        rfl
      exact htake ▸ hbegun.tail hcommit
    · have hperm := (hall.append_left (log.take m)).map Txn.name
      apply hperm.nodup_iff.mpr
      apply List.Nodup.sublist _ h.names
      apply List.Sublist.map
      have hsub : (log.take m ++ (log.drop m).filter (fun t => t.snapshot < m + 1)).Sublist
        (log.take m ++ log.drop m) :=
        List.filter_sublist.append_left (log.take m)
      rwa [List.take_append_drop] at hsub
    · intro t ht
      obtain ⟨hmem, hsnapshot⟩ := List.mem_filter.mp ht
      have he : t.snapshot = m := of_decide_eq_true hsnapshot
      exact ⟨he.trans hlength.symm,
        (h.begun t (List.mem_of_mem_drop hmem)).take (Nat.le_of_eq he) (Nat.le_of_succ_le hm)⟩

/-- The commits that a run can lead to are the valid ones. -/
theorem valid_iff : Valid C init prior log ↔ ∃ running, Reachable C init prior ⟨log, running⟩ := by
  constructor
  · intro h
    obtain ⟨running, _, hreach⟩ := h.reachable_take log.length (Nat.le_refl _)
    rw [List.take_length] at hreach
    exact ⟨running, hreach⟩
  · intro h
    obtain ⟨running, hreach⟩ := h
    exact hreach.inv.valid

end Runs

section Schedules

theorem none_of_head {α : Type} {P : α → Bool} {a : α} {l : List α}
    (h : ∀ b ∈ l, P b = true → P a = true) (ha : P a = false) : ∀ x ∈ a :: l, ¬ P x = true := by
  intro x hx hpx
  cases List.mem_cons.mp hx with
  | inl he => exact Bool.false_ne_true (ha.symm.trans (he ▸ hpx))
  | inr hx => exact Bool.false_ne_true (ha.symm.trans (h x hx hpx))

/-- What comes before a bound is a first part of a list in order. -/
theorem take_countP {α : Type} {P : α → Bool} {l : List α}
    (h : l.Pairwise fun a b => P b = true → P a = true) :
    l.take (l.countP P) = l.filter P := by
  induction l with
  | nil => rfl
  | cons a l ih =>
    obtain ⟨ha, hl⟩ := List.pairwise_cons.mp h
    cases hp : P a with
    | true =>
      rw [List.countP_cons_of_pos hp, List.filter_cons_of_pos hp, List.take_succ_cons, ih hl]
    | false =>
      have hno := none_of_head ha hp
      rw [List.countP_eq_zero.mpr hno, List.filter_eq_nil_iff.mpr hno, List.take_zero]

theorem lt_countP_iff {α : Type} {P : α → Bool} {l : List α}
    (h : l.Pairwise fun a b => P b = true → P a = true) {m : Nat}
    {a : α} (ha : l[m]? = some a) : m < l.countP P ↔ P a = true := by
  induction l generalizing m with
  | nil => cases ha
  | cons b l ih =>
    obtain ⟨hb, hl⟩ := List.pairwise_cons.mp h
    cases hp : P b with
    | true =>
      rw [List.countP_cons_of_pos hp]
      cases m with
      | zero =>
        cases ha
        exact ⟨fun _ => hp, fun _ => Nat.succ_pos _⟩
      | succ m => exact (Nat.succ_lt_succ_iff).trans (ih hl ha)
    | false =>
      have hno := none_of_head hb hp
      rw [List.countP_eq_zero.mpr hno]
      exact iff_of_false (Nat.not_lt_zero m) (hno a (List.mem_of_getElem? ha))

variable {α : Type} [LinearOrder α]

section Definitions

variable (s c : τ → α) (ids : List τ) (ops : τ → List ω) (state : τ → σ)

/-- A transaction, with its snapshot read off an order of the begins and commits. -/
def scheduled (i : τ) : Txn τ ω σ := ⟨i, ids.countP fun j => c j < s i, ops i, state i⟩

/-- The commits before a begin. -/
def commitsBefore (i : τ) : List (Txn τ ω σ) :=
  (ids.filter fun j => c j < s i).map (scheduled s c ids ops state)

variable (C : Client κ ν ω σ) (init : κ → Option ν) (prior : τ → τ → Prop)

/-- An order of the begins and commits that a store could have followed. -/
structure Schedule : Prop where
  sorted : ids.Pairwise fun i j => c i < c j
  begins : ∀ i ∈ ids, s i < c i
  apart :
    ∀ i ∈ ids, ∀ j ∈ ids, i ≠ j → (∃ k, C.writes (state i) k ≠ none ∧ C.writes (state j) k ≠ none) →
    c i < s j ∨ c j < s i
  prior : ∀ u, ∀ i ∈ ids, prior u i → u ∈ ids ∧ c u < s i
  runs :
    ∀ i ∈ ids, Runs C (view C init (commitsBefore s c ids ops state i)) C.start (ops i) (state i)

end Definitions

/-- A list in a strict order is told by its elements. -/
theorem eq_of_sorted {β : Type} {R : β → β → Prop} (hasymm : ∀ a b, R a b → ¬ R b a) {l l' : List β}
    (h : l.Pairwise R) (h' : l'.Pairwise R) (hmem : ∀ a, a ∈ l ↔ a ∈ l') : l = l' := by
  have hne : ∀ {a b}, R a b → a ≠ b := by
    intro a b hab he
    subst he
    exact hasymm a a hab hab
  apply List.Perm.eq_of_pairwise _ h h'
    ((List.perm_ext_iff_of_nodup (h.imp hne) (h'.imp hne)).mpr hmem)
  intro a b _ _ hab hba
  exact absurd hba (hasymm a b hab)

/-- Finitely many transactions in the order of their commits. -/
theorem exists_sorted {c : τ → α} (hc : Function.Injective c) {l : List τ} (hl : l.Nodup) :
    ∃ ids : List τ, ids.Perm l ∧ ids.Pairwise fun i j => c i < c j := by
  have hperm := List.perm_insertionSort (fun i j => c i ≤ c j) l
  have hle := List.pairwise_insertionSort (fun i j => c i ≤ c j) l
  refine ⟨_, hperm, (hle.and (hperm.nodup_iff.mpr hl)).imp ?_⟩
  intro i j h
  exact lt_of_le_of_ne h.1 (hc.ne h.2)

variable {s c : τ → α} {ids : List τ} {ops : τ → List ω} {state : τ → σ}

theorem take_scheduled (h : Schedule s c ids ops state C init prior) (i : τ) :
    (ids.map (scheduled s c ids ops state)).take (scheduled s c ids ops state i).snapshot =
      commitsBefore s c ids ops state i := by
  rw [← List.map_take, commitsBefore, scheduled]
  apply congrArg
  apply take_countP
  apply h.sorted.imp
  intro a b hab hb
  exact decide_eq_true (hab.trans (of_decide_eq_true hb))

/-- A schedule leads to a valid log. -/
theorem Schedule.valid (h : Schedule s c ids ops state C init prior) :
    Valid C init prior (ids.map (scheduled s c ids ops state)) := by
  have hget : ∀ {m : Nat} {t : Txn τ ω σ}, (ids.map (scheduled s c ids ops state))[m]? = some t →
      ∃ i, ids[m]? = some i ∧ t = scheduled s c ids ops state i := by
    intro m t ht
    rw [List.getElem?_map, Option.map_eq_some_iff] at ht
    obtain ⟨i, hi, rfl⟩ := ht
    exact ⟨i, hi, rfl⟩
  have hsnapshot : ∀ {m : Nat} {i j : τ}, ids[m]? = some j →
      (m < (scheduled s c ids ops state i).snapshot ↔ c j < s i) := by
    intro m i j hj
    have hiff := lt_countP_iff (P := fun j => decide (c j < s i))
      (h.sorted.imp fun hab hb => decide_eq_true (hab.trans (of_decide_eq_true hb))) hj
    exact hiff.trans decide_eq_true_iff
  constructor
  · have hnames : (ids.map (scheduled s c ids ops state)).map Txn.name = ids := by
      rw [List.map_map]
      exact List.map_id ids
    rw [hnames]
    exact h.sorted.imp fun hlt => ne_of_apply_ne c (ne_of_lt hlt)
  · intro t ht
    obtain ⟨i, hi, rfl⟩ := List.mem_map.mp ht
    constructor
    · rw [List.length_map]
      exact List.countP_le_length
    · rw [take_scheduled h]
      exact h.runs i hi
    · intro u hu
      obtain ⟨hm, hlt⟩ := h.prior u i hi hu
      rw [take_scheduled h]
      exact ⟨_, List.mem_map_of_mem (List.mem_filter.mpr ⟨hm, decide_eq_true hlt⟩), rfl⟩
  · intro m t ht
    obtain ⟨i, hi, rfl⟩ := hget ht
    by_contra hn
    exact lt_asymm (h.begins i (List.mem_of_getElem? hi)) ((hsnapshot hi).mp (Nat.lt_of_not_le hn))
  · intro m n t u ht hu hle hlt
    obtain ⟨i, hi, rfl⟩ := hget ht
    obtain ⟨j, hj, rfl⟩ := hget hu
    have hji : c j < c i := by
      obtain ⟨hn, rfl⟩ := List.getElem?_eq_some_iff.mp hj
      obtain ⟨hm, rfl⟩ := List.getElem?_eq_some_iff.mp hi
      exact List.pairwise_iff_getElem.mp h.sorted n m hn hm hlt
    intro k
    by_contra hk
    obtain ⟨hwj, hwi⟩ := not_or.mp hk
    have hne : i ≠ j := fun he => lt_irrefl _ (he ▸ hji)
    cases h.apart i (List.mem_of_getElem? hi) j (List.mem_of_getElem? hj) hne ⟨k, hwi, hwj⟩ with
    | inl hlt' => exact lt_asymm hji (hlt'.trans (h.begins j (List.mem_of_getElem? hj)))
    | inr hlt' => exact absurd ((hsnapshot hj).mpr hlt') (Nat.not_lt_of_le hle)

end Schedules

end SnapshotStore
