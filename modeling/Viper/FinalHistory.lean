import Viper.AdyaSISpec
import Viper.MissingBounds
import Viper.Replay

/-!
# Histories with a final state

The last transaction of such a history is one query of all keys. `check_INT` runs
on every transaction before the builder does. It accepts or rejects reads and
successful writes, and the final query as well, unless the query returned a record
and lacks a bound: then the assertions on bounds raise a type error.
-/
namespace Viper

open Py

section Definitions

variable {κ : Type} [LinearOrder κ]

/-- The parser of JSON logs lets only those transactions pass that `check_INT` accepts. -/
def checkEntry (_ : Unit) (e : Entry (Mop κ Value)) : Except Err Unit :=
  match e.value with
  | none => .ok ()
  | some txn => do
    let consistent ← checkINT txn
    if consistent then .ok () else .error (.reject "INT error")

/-- `construct_graph_from_log` on the decoded transactions of a JSON log. -/
def AdyaSI.constructGraphFromJson [ToString κ] (o : SetOrder)
    (fullHistory : List (Entry (Mop κ Value)))
    (histories : List (List (Entry (Mop κ Value)))) (strongSession hasFinal : Bool) :
    Except Err (ArgumentedPolyGraph κ) := do
  fullHistory.foldlM checkEntry ()
  constructGraphFromLog o fullHistory histories strongSession hasFinal

/-- Reads and successful writes. -/
def Mop.Plain : Mop κ Value → Prop
  | .r _ _ _ => True
  | .w _ _ succ => succ = true
  | _ => False

instance : (mop : Mop κ Value) → Decidable mop.Plain
  | .r _ _ _ => .isTrue trivial
  | .w _ _ succ => inferInstanceAs (Decidable (succ = true))
  | .range _ _ _ _ _ => .isFalse id
  | .i _ _ _ _ _ => .isFalse id
  | .d _ _ _ _ _ => .isFalse id
  | .append _ _ => .isFalse id

variable (H : List (Entry (Mop κ Value))) (k1 k2 : Option κ) (rs dead : List (Record κ Value))

/-- Some transaction writes `k`, the initial one included. -/
def Written (k : κ) : Prop :=
  (∃ i v, Has extWritesFn H i k v) ∨ ∃ st v, initialState H = .ok (some st) ∧ st.get? k = some v

/-- Histories of reads and successful writes whose last transaction is one query
of all keys. -/
structure FinalHistory : Prop where
  initial :
    ∃ e, H.head? = some e ∧ ∀ ops, e.value = some ops → ∀ mop ∈ ops, ∃ k v, mop = .w k v true
  complete : ∀ i, 0 < i → i < H.length → ∃ txn, TxnAt H i txn
  plain : ∀ i txn, TxnAt H i txn → i ≠ H.length - 1 → ∀ mop ∈ txn, mop.Plain
  final : ∃ fin, TxnAt H (H.length - 1) [.range k1 k2 rs dead fin]
  covers : ∀ k, (∃ item ∈ rs ++ dead, item.id = k) ∨ Written H k → inBetween k k1 k2 = true
  values : ∀ item ∈ rs ++ dead, item.val.isInt = true
  unique : UniqueWrites H

/-- The final state shows `v` for `k`. -/
def Shows (k : κ) (v : Value) : Prop := ∃ item ∈ rs ++ dead, item.id = k ∧ item.val = v

/-- `check_INT` rejects a transaction. -/
def Refused : Prop := ∃ e ∈ H, ∃ txn, e.value = some txn ∧ Rejects (checkINT txn)

/-- The inline assertions compare the bounds of the final query as soon as it has a record. -/
def TwoSided : Prop := rs ++ dead = [] ∨ (k1.isSome ∧ k2.isSome)

end Definitions

section Checking

variable {κ : Type} [LinearOrder κ]

omit [LinearOrder κ] in
theorem Mop.Plain.basic {mop : Mop κ Value} (h : mop.Plain) : mop.Basic := by
  cases mop with
  | r | w | range => trivial
  | i | d | append => exact h

theorem Mop.Plain.admissible {mop : Mop κ Value} (h : mop.Plain) : mop.Admissible := by
  cases mop with
  | r | w | append => trivial
  | i | d | range => exact h.elim

/-- Without assertions to fail, `check_INT` accepts or rejects. -/
theorem checkINT_cases {txn : List (Mop κ Value)} (ha : ∀ mop ∈ txn, mop.Admissible)
    (hb : ∀ mop ∈ txn, mop.Bounded) :
    checkINT txn = .ok true ∨ Rejects (checkINT txn) := by
  have hno := not_crashes_checkINT ha hb
  cases hc : checkINT txn with
  | ok b =>
    obtain rfl := checkINT_eq_true hc
    exact .inl rfl
  | error e =>
    rw [hc] at hno
    exact .inr (by_contra fun hr => hno ⟨⟨e, rfl⟩, hr⟩)

theorem Mop.Plain.bounded {mop : Mop κ Value} (h : mop.Plain) : mop.Bounded := by
  cases mop with
  | r | w => trivial
  | i | d | append | range => exact h.elim

theorem checkEntry_of_checkINT {e : Entry (Mop κ Value)} {txn : List (Mop κ Value)}
    (hv : e.value = some txn) (h : checkINT txn = .ok true) : checkEntry () e = .ok () := by
  simp [checkEntry, hv, h]

theorem checkINT_of_checkEntry {e : Entry (Mop κ Value)} {txn : List (Mop κ Value)}
    (hv : e.value = some txn) (h : checkEntry () e = .ok ()) : checkINT txn = .ok true := by
  simp only [checkEntry, hv, bind_eq_ok] at h
  obtain ⟨b, hb, _⟩ := h
  obtain rfl := checkINT_eq_true hb
  exact hb

theorem rejects_checkEntry {e : Entry (Mop κ Value)} {txn : List (Mop κ Value)}
    (hv : e.value = some txn) (h : Rejects (checkINT txn)) : Rejects (checkEntry () e) := by
  obtain ⟨msg, h⟩ := h
  exact ⟨msg, by simp [checkEntry, hv, h]⟩

theorem not_rejects_checkEntry {e : Entry (Mop κ Value)}
    (h : ∀ txn, e.value = some txn → ¬ Rejects (checkINT txn)) :
    ¬ Rejects (checkEntry () e) := by
  cases hv : e.value with
  | none => simp [checkEntry, hv, Rejects]
  | some txn =>
    have hno := h txn hv
    cases hc : checkINT txn with
    | error e =>
      rw [hc] at hno
      simpa [checkEntry, hv, hc, Rejects] using hno
    | ok b =>
      obtain rfl := checkINT_eq_true hc
      simp [checkEntry, hv, hc, Rejects]

theorem not_rejects_checks {l : List (Entry (Mop κ Value))} (h : ¬ Refused l) :
    ¬ Rejects (l.foldlM checkEntry ()) := by
  rintro ⟨msg, hrun⟩
  obtain ⟨e, he, _, hstep⟩ := foldlM_error hrun
  exact not_rejects_checkEntry (fun txn hv hr => h ⟨e, he, txn, hv, hr⟩) ⟨msg, hstep⟩

/-- A check that only the last entry can crash rejects what any entry does. -/
theorem rejects_checks {l : List (Entry (Mop κ Value))} {z : Entry (Mop κ Value)}
    (hl : ∀ e ∈ l, checkEntry () e = .ok () ∨ Rejects (checkEntry () e))
    (h : ∃ e ∈ l ++ [z], Rejects (checkEntry () e)) :
    Rejects ((l ++ [z]).foldlM checkEntry ()) := by
  induction l with
  | nil =>
    obtain ⟨e, he, msg, hr⟩ := h
    obtain rfl := List.mem_singleton.mp he
    exact ⟨msg, by rw [List.nil_append, List.foldlM_cons, hr]; rfl⟩
  | cons a l ih =>
    rw [List.cons_append, List.foldlM_cons]
    rcases hl a List.mem_cons_self with ha | ⟨msg, ha⟩
    · rw [ha, ok_bind]
      refine ih (fun e he => hl e (List.mem_cons_of_mem a he)) ?_
      obtain ⟨e, he, hr⟩ := h
      rcases List.mem_cons.mp he with rfl | he
      · obtain ⟨msg, hr⟩ := hr
        rw [ha] at hr
        cases hr
      · exact ⟨e, he, hr⟩
    · exact ⟨msg, by rw [ha]; rfl⟩

end Checking

section Facts

variable {κ : Type} [LinearOrder κ] {H : List (Entry (Mop κ Value))} {k1 k2 : Option κ}
  {rs dead : List (Record κ Value)}

section Shape

variable (h : FinalHistory H k1 k2 rs dead)
include h

theorem FinalHistory.pos : 0 < H.length - 1 := by
  obtain ⟨_, hpos, _⟩ := h.final
  exact hpos

theorem FinalHistory.last_txn {txn : List (Mop κ Value)} (ht : TxnAt H (H.length - 1) txn) :
    ∃ fin, txn = [.range k1 k2 rs dead fin] := by
  obtain ⟨fin, hfin⟩ := h.final
  exact ⟨fin, ht.unique hfin⟩

/-- Tf writes nothing. -/
theorem FinalHistory.not_last {i : Nat} {k : κ} {v : Value} (hw : Has extWritesFn H i k v) :
    i ≠ H.length - 1 := by
  rintro rfl
  obtain ⟨txn, m, ht, hm, hk⟩ := hw
  obtain ⟨fin, rfl⟩ := h.last_txn ht
  cases hm
  simp at hk

theorem FinalHistory.write_lt {i : Nat} {k : κ} {v : Value} (hw : Has extWritesFn H i k v) :
    i < H.length - 1 := by
  have hne := h.not_last hw
  have hlt := hw.lt.2
  omega

theorem FinalHistory.upsert_ne {i p : Nat} {k : κ} (hu : UpsertAt H i p k) : i ≠ H.length - 1 := by
  rintro rfl
  obtain ⟨txn, v, succ, ht, hj⟩ := hu
  obtain ⟨fin, rfl⟩ := h.last_txn ht
  cases p with
  | zero => cases hj
  | succ p => cases hj

/-- The final query is the only one. -/
theorem FinalHistory.range {q m : Nat} {a b : Option κ} {live gone : List (Record κ Value)}
    (hr : RangeAt H q m a b live gone) :
    q = H.length - 1 ∧ a = k1 ∧ b = k2 ∧ live = rs ∧ gone = dead := by
  obtain ⟨txn, fin, ht, hj⟩ := hr
  by_cases hq : q = H.length - 1
  · subst hq
    obtain ⟨fin', rfl⟩ := h.last_txn ht
    cases m with
    | zero =>
      cases hj
      exact ⟨rfl, rfl, rfl, rfl, rfl⟩
    | succ m => cases hj
  · exact (h.plain q txn ht hq _ (List.mem_of_getElem? hj)).elim

/-- Tf omits a written key exactly when it does not show it. -/
theorem FinalHistory.omits {q m : Nat} {k : κ} (hom : Omits H q m k) :
    q = H.length - 1 ∧ ∀ v, ¬ Shows rs dead k v := by
  obtain ⟨a, b, live, gone, hr, _, hlive, hgone⟩ := hom
  obtain ⟨hq, rfl, rfl, rfl, rfl⟩ := h.range hr
  refine ⟨hq, ?_⟩
  rintro v ⟨item, hi, he, _⟩
  rcases List.mem_append.mp hi with hi | hi
  · exact hlive (List.mem_map.mpr ⟨item, hi, he⟩)
  · exact hgone (List.mem_map.mpr ⟨item, hi, he⟩)

theorem FinalHistory.omits_of_written {k : κ} (hk : Written H k) (hno : ∀ v, ¬ Shows rs dead k v) :
    Omits H (H.length - 1) 0 k := by
  obtain ⟨fin, ht⟩ := h.final
  refine ⟨k1, k2, rs, dead, ⟨_, fin, ht, rfl⟩, h.covers k (.inr hk), ?_, ?_⟩
  · intro hm
    obtain ⟨item, hi, he⟩ := List.mem_map.mp hm
    exact hno item.val ⟨item, List.mem_append_left _ hi, he, rfl⟩
  · intro hm
    obtain ⟨item, hi, he⟩ := List.mem_map.mp hm
    exact hno item.val ⟨item, List.mem_append_right _ hi, he, rfl⟩

/-- An entry with a value holds reads and writes, or it is Tf. -/
theorem FinalHistory.entry {n : Nat} {e : Entry (Mop κ Value)} {txn : List (Mop κ Value)}
    (he : H[n]? = some e)
    (hv : e.value = some txn) : (∀ mop ∈ txn, mop.Plain) ∨
    n = H.length - 1 ∧ ∃ fin, txn = [.range k1 k2 rs dead fin] := by
  cases n with
  | zero =>
    obtain ⟨e', he', hops⟩ := h.initial
    rw [List.head?_eq_getElem?, he] at he'
    cases he'
    refine .inl (fun mop hm => ?_)
    obtain ⟨k, v, rfl⟩ := hops txn hv mop hm
    rfl
  | succ n =>
    have ht : TxnAt H (n + 1) txn := ⟨Nat.succ_pos n, e, he, hv⟩
    by_cases hn : n + 1 = H.length - 1
    · exact .inr ⟨hn, h.last_txn (hn ▸ ht)⟩
    · exact .inl (h.plain _ txn ht hn)

theorem FinalHistory.bounded {fin : Option Bool} : (Mop.range k1 k2 rs dead fin).Bounded :=
  fun item hi => h.covers _ (.inl ⟨item, hi, rfl⟩)

/-- With two bounds, or nothing between them, the final query passes its assertions. -/
theorem FinalHistory.admissible (hB : TwoSided k1 k2 rs dead) {fin : Option Bool} :
    (Mop.range k1 k2 rs dead fin).Admissible := by
  intro item hi
  rcases hB with he | ⟨h₁, h₂⟩
  · rw [he] at hi
    cases hi
  · exact assertBounds_of_inBetween h₁ h₂ (h.covers _ (.inl ⟨item, hi, rfl⟩))

theorem FinalHistory.basic {i : Nat} {txn : List (Mop κ Value)} (ht : TxnAt H i txn) :
    ∀ mop ∈ txn, mop.Basic := by
  obtain ⟨hpos, e, he, hv⟩ := ht
  rcases h.entry he hv with hp | ⟨_, fin, rfl⟩
  · exact fun mop hm => (hp mop hm).basic
  · exact fun mop hm => by rw [List.mem_singleton.mp hm]; trivial

/-- Every entry passes `check_INT`, is refused by it, or is Tf. -/
theorem FinalHistory.entry_cases {n : Nat} {e : Entry (Mop κ Value)} (he : H[n]? = some e)
    (hn : n ≠ H.length - 1 ∨ TwoSided k1 k2 rs dead) :
    checkEntry () e = .ok () ∨ ∃ txn, e.value = some txn ∧ Rejects (checkINT txn) := by
  cases hv : e.value with
  | none => exact .inl (by rw [checkEntry, hv])
  | some txn =>
    have hcases : checkINT txn = .ok true ∨ Rejects (checkINT txn) := by
      rcases h.entry he hv with hp | ⟨hlast, fin, rfl⟩
      · exact checkINT_cases (fun mop hm => (hp mop hm).admissible)
          (fun mop hm => (hp mop hm).bounded)
      · have hB := hn.resolve_left (not_not_intro hlast)
        refine checkINT_cases (fun mop hm => ?_) (fun mop hm => ?_) <;>
          rw [List.mem_singleton.mp hm]
        · exact h.admissible hB
        · exact h.bounded
    rcases hcases with hc | hc
    · exact .inl (checkEntry_of_checkINT hv hc)
    · exact .inr ⟨txn, rfl, hc⟩

/-- Only Tf can crash `check_INT`, and it comes last. -/
theorem FinalHistory.rejects_of_refused (hR : Refused H) : Rejects (H.foldlM checkEntry ()) := by
  have hne : H ≠ [] := List.ne_nil_of_length_pos (Nat.lt_of_lt_of_le h.pos (Nat.sub_le _ _))
  obtain ⟨e, he, txn, hv, hr⟩ := hR
  rw [← List.dropLast_append_getLast hne] at he ⊢
  refine rejects_checks (fun e' he' => ?_) ⟨e, he, rejects_checkEntry hv hr⟩
  obtain ⟨n, hn⟩ := List.mem_iff_getElem?.mp he'
  rw [List.getElem?_dropLast] at hn
  split at hn
  · rename_i hlt
    exact (h.entry_cases hn (.inl (Nat.ne_of_lt hlt))).imp id
      (fun ⟨txn, hv, hr⟩ => rejects_checkEntry hv hr)
  · cases hn

/-- A history that `check_INT` does not refuse passes it, if the final query can. -/
theorem FinalHistory.accepted (hB : TwoSided k1 k2 rs dead) (hR : ¬ Refused H) :
    H.foldlM checkEntry () = .ok () ∧ ∀ i txn, TxnAt H i txn → checkINT txn = .ok true := by
  constructor
  · obtain ⟨u, hu, _⟩ :=
      foldlM_total (fun _ => True) (f := checkEntry) (l := H) (s := ()) (fun _ e he _ => by
      obtain ⟨n, hn⟩ := List.mem_iff_getElem?.mp he
      rcases h.entry_cases hn (.inr hB) with hok | ⟨txn, hv, hr⟩
      · exact ⟨(), hok, trivial⟩
      · exact absurd ⟨e, he, txn, hv, hr⟩ hR) trivial
    exact hu
  · rintro i txn ⟨_, e, he, hv⟩
    rcases h.entry_cases he (.inr hB) with hok | ⟨txn', hv', hr⟩
    · exact checkINT_of_checkEntry hv hok
    · exact absurd ⟨e, List.mem_of_getElem? he, txn', hv', hr⟩ hR

theorem FinalHistory.wellFormed (hB : TwoSided k1 k2 rs dead) (hR : ¬ Refused H) :
    WellFormed H where
  initial := initialState_total h.initial
  complete := h.complete
  admissible i txn ht := by
    obtain ⟨_, e, he, hv⟩ := ht
    rcases h.entry he hv with hp | ⟨_, fin, rfl⟩
    · exact fun mop hm => (hp mop hm).admissible
    · exact fun mop hm => by rw [List.mem_singleton.mp hm]; exact h.admissible hB
  unique := h.unique
  apart := apart_of_checkINT h.unique (h.accepted hB hR).2 (fun i txn ht => h.basic ht)

/-- The versions that Tf shows are external reads of it. -/
theorem FinalHistory.reads (hB : TwoSided k1 k2 rs dead) (hR : ¬ Refused H) {k : κ} {v : Value}
    (hs : Shows rs dead k v) :
    Has extReadsFn H (H.length - 1) k v := by
  obtain ⟨item, hi, rfl, rfl⟩ := hs
  obtain ⟨fin, ht⟩ := h.final
  obtain ⟨reads, hreads⟩ := extReadsFn_total ((h.wellFormed hB hR).admissible _ _ ht)
  exact ⟨_, reads, ht, hreads,
    extReadsFn_range_of_checkINT hreads ((h.accepted hB hR).2 _ _ ht) item hi⟩

end Shape

theorem not_rejects_extIndex {extFn : List (Mop κ Value) → Except Err (Dict κ Value)}
    (hf : ∀ txn, ¬ Rejects (extFn txn)) :
    ¬ Rejects (extIndex H extFn) := by
  rw [extIndex]
  refine not_rejects_bind ?_ (fun ps => not_rejects_foldlM (fun idx p => ?_) ps Dict.empty)
  · rw [numbered]
    split <;> simp [Rejects]
  · rw [extIndexStep]
    refine not_rejects_bind ?_ (fun txn => not_rejects_bind (hf txn) (fun _ => not_rejects_ok _))
    rw [txnOf]
    split <;> simp [Rejects]

theorem not_rejects_extWritesFn (txn : List (Mop κ Value)) : ¬ Rejects (extWritesFn txn) := by
  refine not_rejects_foldlM (fun m mop => ?_) txn Dict.empty
  cases mop with
  | d k v readV dead succ =>
    exact not_rejects_bind (not_rejects_require _ _) (fun _ => not_rejects_ok _)
  | r | w | i | range | append => exact not_rejects_ok _

omit [LinearOrder κ] in
theorem not_rejects_sessions {histories : List (List (Entry (Mop κ Value)))} (strongSession : Bool)
    (G : ArgumentedPolyGraph κ) :
    ¬ Rejects (optionally strongSession (addSessionOrder · histories) G) := by
  rw [optionally_sessionOrder_eq]
  rintro ⟨msg, hplay⟩
  have hm := play_reject hplay
  cases strongSession with
  | false => cases hm
  | true =>
    obtain ⟨_, _, _, he⟩ := (mem_sessionScript histories _).mp hm
    cases he

variable [ToString κ] {histories : List (List (Entry (Mop κ Value)))} {strongSession : Bool}
  {o : SetOrder}

/-- A record of a final query without both bounds is a type error, not a verdict. -/
theorem FinalHistory.crashes (h : FinalHistory H k1 k2 rs dead) (hB : ¬ TwoSided k1 k2 rs dead) :
    Crashes (AdyaSI.constructGraphFromLog o H histories strongSession true) := by
  obtain ⟨fin, ht⟩ := h.final
  cases hX : extIndex H extReadsFn with
  | ok R =>
    obtain ⟨m, hm⟩ := extIndex_each hX ht
    refine absurd ?_ hB
    have hadm := admissible_of_extReadsFn hm List.mem_cons_self
    cases hl : rs ++ dead with
    | nil => exact .inl hl
    | cons item l =>
      obtain ⟨a, b, rfl, rfl, _⟩ := assertBounds_eq_ok.mp (hadm item (hl ▸ List.mem_cons_self))
      exact .inr ⟨rfl, rfl⟩
  | error e =>
    have hno : ¬ Rejects (AdyaSI.constructGraphFromLog o H histories strongSession true) := by
      have hR : ¬ Rejects (extIndex H extReadsFn) := not_rejects_extIndex not_rejects_extReadsFn
      rw [hX] at hR
      simp only [AdyaSI.constructGraphFromLog, hX, error_bind]
      exact not_rejects_bind (not_rejects_sessions _ _) (fun _ =>
        not_rejects_bind (not_rejects_extIndex not_rejects_extWritesFn)
          (fun _ => by simpa [Rejects] using hR))
    refine ⟨?_, hno⟩
    cases hG : AdyaSI.constructGraphFromLog o H histories strongSession true with
    | error e' => exact ⟨e', rfl⟩
    | ok G =>
      obtain ⟨t, ht'⟩ := AdyaSI.tables_of_ok o hG
      exact absurd (hX.symm.trans ht'.extReads) (by simp)

section Json

variable (h : FinalHistory H k1 k2 rs dead)
include h

theorem FinalHistory.json_rejects (hR : Refused H) (hasFinal : Bool) :
    Rejects (AdyaSI.constructGraphFromJson o H histories strongSession hasFinal) := by
  obtain ⟨msg, hrej⟩ := h.rejects_of_refused hR
  exact ⟨msg, by rw [AdyaSI.constructGraphFromJson, hrej]; rfl⟩

theorem FinalHistory.json_eq (hB : TwoSided k1 k2 rs dead) (hR : ¬ Refused H) (hasFinal : Bool) :
    AdyaSI.constructGraphFromJson o H histories strongSession hasFinal =
      AdyaSI.constructGraphFromLog o H histories strongSession hasFinal := by
  rw [AdyaSI.constructGraphFromJson, (h.accepted hB hR).1]
  rfl

/-- `check_INT` may already crash on the bounds, but it does not reject. -/
theorem FinalHistory.json_crashes (hB : ¬ TwoSided k1 k2 rs dead) (hR : ¬ Refused H) :
    Crashes (AdyaSI.constructGraphFromJson o H histories strongSession true) := by
  have hchecks := not_rejects_checks hR
  rw [AdyaSI.constructGraphFromJson]
  cases hrun : H.foldlM checkEntry () with
  | ok u => exact h.crashes hB
  | error e =>
    rw [hrun] at hchecks
    exact ⟨⟨e, rfl⟩, by simpa [Rejects] using hchecks⟩

end Json

end Facts

end Viper
