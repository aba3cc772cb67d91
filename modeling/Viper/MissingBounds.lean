import Viper.Accesses
import Mathlib.Data.List.Forall2

/-!
# Range queries with a missing bound

`in_between` and `subset` let a bound be missing, and the parser produces such
queries. `check_INT` and `ext_reads_fn` compare the bounds of a record inline,
which a missing bound turns into a type error.
-/
namespace Viper

open Py

variable {κ ν : Type} [LinearOrder κ]

/-- The records of a query lie between its bounds, as far as it has any; inserts
and deletes succeed. -/
def Mop.Bounded : Mop κ ν → Prop
  | .range k1 k2 rs dead _ => ∀ item ∈ rs ++ dead, inBetween item.id k1 k2 = true
  | .i _ _ _ _ succ => succ = true
  | .d _ _ _ _ succ => succ = true
  | .append _ _ => False
  | _ => True

/-- A micro-operation, and the same one with concrete bounds around all its records. -/
inductive Concrete : Mop κ ν → Mop κ ν → Prop where
  | range {k1 k2 : Option κ} {a b : κ} {rs dead : List (Record κ ν)} {fin : Option Bool}
      (h : ∀ item ∈ rs ++ dead, a ≤ item.id ∧ item.id ≤ b) :
      Concrete (.range k1 k2 rs dead fin) (.range (some a) (some b) rs dead fin)
  | r {k : κ} {v : ν} {isDead : Bool} : Concrete (.r k v isDead) (.r k v isDead)
  | w {k : κ} {v : ν} {succ : Bool} : Concrete (.w k v succ) (.w k v succ)
  | i {k : κ} {v readV : ν} {isDead succ : Bool} :
      Concrete (.i k v readV isDead succ) (.i k v readV isDead succ)
  | d {k : κ} {v readV : ν} {isDead succ : Bool} :
      Concrete (.d k v readV isDead succ) (.d k v readV isDead succ)

theorem Concrete.admissible {mop mop' : Mop κ ν} (h : Concrete mop mop') (ha : mop.Admissible) :
    mop'.Admissible := by
  cases h with
  | range hb =>
    intro item hi
    exact assertBounds_of_inBetween rfl rfl (by simpa [inBetween] using hb item hi)
  | r | w | i | d => exact ha

section Steps

variable {σ : Type} (f : σ → Record κ ν → Except Err σ)

omit [LinearOrder κ] in
/-- Guards that hold do not matter. -/
theorem foldlM_guarded {c : κ → Except Err Unit} {rs : List (Record κ ν)}
    (h : ∀ item ∈ rs, c item.id = .ok ())
    (s : σ) : rs.foldlM (fun s item => do c item.id; f s item) s = rs.foldlM f s := by
  induction rs generalizing s with
  | nil => rfl
  | cons item rs ih =>
    rw [List.foldlM_cons, List.foldlM_cons, h item List.mem_cons_self, ok_bind]
    exact bind_congr (fun s => ih (fun i hi => h i (List.mem_cons_of_mem item hi)) s)

theorem require_inBetween {k1 k2 : Option κ} {k : κ} (h : assertBounds k1 k2 k = .ok ()) :
    require (inBetween k k1 k2) "" = .ok () :=
  require_eq_ok.mpr (inBetween_of_assertBounds h)

theorem intStep_range_eq [DecidableEq ν] {k1 k2 : Option κ} {rs dead : List (Record κ ν)}
    {fin : Option Bool}
    (h : (Mop.range k1 k2 rs dead fin).Admissible) (writes : Dict (κ × ν) Nat)
    (last : Dict κ ν) (n : Nat) :
    intStep writes last (.range k1 k2 rs dead fin, n) =
      (rs ++ dead).foldlM (intRecord n writes) last := by
  have hrs := fun item hi => require_inBetween (h item (List.mem_append_left dead hi))
  have hdead := fun item hi => h item (List.mem_append_right rs hi)
  have h₁ :=
    foldlM_guarded (intRecord n writes) (c := fun id => require (inBetween id k1 k2) "") hrs last
  rw [intStep, List.foldlM_append, ← h₁]
  exact bind_congr (fun last => foldlM_guarded (intRecord n writes) hdead last)

end Steps

section Transactions

variable [DecidableEq ν] {txn txn' : List (Mop κ ν)}

theorem Concrete.intStep_eq {mop mop' : Mop κ ν} (h : Concrete mop mop') (ha : mop.Admissible)
    (writes : Dict (κ × ν) Nat) (last : Dict κ ν) (n : Nat) :
    intStep writes last (mop, n) = intStep writes last (mop', n) := by
  have ha' := h.admissible ha
  cases h with
  | range _ => rw [intStep_range_eq ha, intStep_range_eq ha']
  | r | w | i | d => rfl

/-- The second pass fails on an admissible micro-operation only with a verdict. -/
theorem rejects_of_intStep_error {mop : Mop κ ν} (ha : mop.Admissible) (hb : mop.Bounded)
    {writes : Dict (κ × ν) Nat}
    {last : Dict κ ν} {n : Nat} {e : Err}
    (h : intStep writes last (mop, n) = .error e) : Rejects (.error e : Except Err Unit) := by
  have hvalid : ∀ {k v last}, checkValidRead k last v n writes = .error e →
      Rejects (.error e : Except Err Unit) := by
    intro k v last hv
    rcases rejects_checkValidRead k last v n writes with ⟨hok, _⟩ | ⟨hr, _⟩
    · rw [hok] at hv
      cases hv
    · rwa [hv] at hr
  cases mop with
  | range k1 k2 rs dead fin =>
    rw [intStep_range_eq ha] at h
    obtain ⟨item, _, t, hi⟩ := foldlM_error h
    rw [intRecord, bind_eq_error] at hi
    rcases hi with hv | ⟨_, _, he⟩
    · exact hvalid hv
    · cases he
  | r k v dead =>
    rw [intStep, bind_eq_error] at h
    rcases h with hv | ⟨_, _, he⟩
    · exact hvalid hv
    · cases he
  | d k v readV dead succ =>
    obtain rfl : succ = true := ha
    rw [intStep, bind_eq_error] at h
    rcases h with hs | ⟨_, _, h⟩
    · simp [require] at hs
    rw [bind_eq_error] at h
    rcases h with hv | ⟨_, _, he⟩
    · exact hvalid hv
    · cases he
  | w | i => cases h
  | append => exact False.elim hb

theorem not_crashes_checkINT (ha : ∀ mop ∈ txn, mop.Admissible) (hb : ∀ mop ∈ txn, mop.Bounded) :
    ¬ Crashes (checkINT txn) := by
  rintro ⟨⟨e, he⟩, hno⟩
  have hrun := he
  rw [checkINT, bind_eq_error] at hrun
  rcases hrun with hrun | ⟨_, _, hok⟩
  · obtain ⟨⟨mop, n⟩, hm, t, hstep⟩ := foldlM_error hrun
    have hmem := List.mem_of_getElem? (List.mk_mem_zipIdx_iff_getElem?.mp hm)
    obtain ⟨msg, hmsg⟩ := rejects_of_intStep_error (ha mop hmem) (hb mop hmem) hstep
    cases hmsg
    exact hno ⟨msg, he⟩
  · cases hok

omit [DecidableEq ν] in
/-- `ext_reads_fn` gives no verdicts. -/
theorem not_rejects_extReadsFn (txn : List (Mop κ ν)) : ¬ Rejects (extReadsFn txn) := by
  have hrecords : ∀ (k1 k2 : Option κ) (rs : List (Record κ ν)) (st : ReadState κ ν),
      ¬ Rejects (rs.foldlM (extReadsRecord k1 k2) st) := by
    intro k1 k2 rs st
    exact not_rejects_foldlM (fun s item => not_rejects_bind (not_rejects_assertBounds _ _ _)
      (fun _ => not_rejects_ok _)) _ _
  refine not_rejects_bind (not_rejects_foldlM (fun st mop => ?_) _ _) (fun st => not_rejects_ok _)
  cases mop with
  | range k1 k2 rs dead fin =>
    exact not_rejects_bind (hrecords k1 k2 rs st) (fun st => hrecords k1 k2 dead st)
  | i k v readV dead succ | d k v readV dead succ =>
    rw [extReadsStep]
    split
    · exact not_rejects_bind (not_rejects_require _ _) (fun _ => not_rejects_ok _)
    · exact not_rejects_ok _
  | r | w | append => exact not_rejects_ok _

omit [DecidableEq ν] in
/-- `ext_reads_fn` has compared every record with both bounds. -/
theorem admissible_of_extReadsFn {m : Dict κ ν} (h : extReadsFn txn = .ok m) {k1 k2 : Option κ}
    {rs dead : List (Record κ ν)} {fin : Option Bool} (hm : .range k1 k2 rs dead fin ∈ txn) :
    ∀ item ∈ rs ++ dead, assertBounds k1 k2 item.id = .ok () := by
  rw [extReadsFn, bind_eq_ok] at h
  obtain ⟨st, hst, _⟩ := h
  obtain ⟨t, t', hstep⟩ := foldlM_each hst _ hm
  rw [extReadsStep, bind_eq_ok] at hstep
  obtain ⟨mid, h₁, h₂⟩ := hstep
  have hall : ∀ {l : List (Record κ ν)} {s s' : ReadState κ ν},
      l.foldlM (extReadsRecord k1 k2) s = .ok s' →
      ∀ item ∈ l, assertBounds k1 k2 item.id = .ok () := by
    intro l s s' hl item hi
    obtain ⟨t, t', hi⟩ := foldlM_each hl item hi
    rw [extReadsRecord, bind_eq_ok] at hi
    obtain ⟨_, hb, _⟩ := hi
    exact hb
  intro item hi
  rcases List.mem_append.mp hi with hi | hi
  · exact hall h₁ item hi
  · exact hall h₂ item hi

end Transactions

end Viper
