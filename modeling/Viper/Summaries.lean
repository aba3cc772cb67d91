import Viper.Indices

/-!
# What the summaries of a transaction say

The functions of `range_utils` that summarise one transaction: which versions it
writes and reads externally, at which positions it upserts a key, and what
`check_INT` rules out. The last section lifts them to histories.
-/
namespace Viper

open Py

variable {κ ν : Type}

/-- The version a micro-operation writes or attempts to write. -/
def Mop.written : Mop κ ν → Option (κ × ν)
  | .w k v _ => some (k, v)
  | .i k v _ _ _ => some (k, v)
  | .d k v _ _ _ => some (k, v)
  | .append k v => some (k, v)
  | _ => none

/-- Everything but a failed upsert. -/
def Mop.Succeeds : Mop κ ν → Prop
  | .w _ _ succ => succ = true
  | .i _ _ _ _ succ => succ = true
  | _ => True

variable [LinearOrder κ]

/-- The assertions made on a micro-operation: records lie between the bounds,
inserts and deletes succeed. -/
def Mop.Admissible : Mop κ ν → Prop
  | .range k1 k2 rs dead _ => ∀ item ∈ rs ++ dead, assertBounds k1 k2 item.id = .ok ()
  | .i _ _ _ _ succ => succ = true
  | .d _ _ _ _ succ => succ = true
  | _ => True

section External

/-- The comparisons succeed only with both bounds. -/
theorem assertBounds_eq_ok {k1 k2 : Option κ} {k : κ} :
    assertBounds k1 k2 k = .ok () ↔ ∃ a b, k1 = some a ∧ k2 = some b ∧ a ≤ k ∧ k ≤ b := by
  cases k1 with
  | none => simp [assertBounds]
  | some a =>
    cases k2 with
    | none =>
      simp only [assertBounds]
      split <;> simp
    | some b =>
      simp only [assertBounds]
      split
      · rename_i ha
        simp [require_eq_ok, ha]
      · rename_i ha
        simp [ha]

theorem inBetween_of_assertBounds {k1 k2 : Option κ} {k : κ} (h : assertBounds k1 k2 k = .ok ()) :
    inBetween k k1 k2 = true := by
  obtain ⟨a, b, rfl, rfl, ha, hb⟩ := assertBounds_eq_ok.mp h
  simp [inBetween, ha, hb]

/-- An external write is a successful write of the transaction. -/
theorem extWritesFn_succeeds {txn : List (Mop κ ν)} {m : Dict κ ν} (h : extWritesFn txn = .ok m)
    {k : κ} {v : ν}
    (hk : m.get? k = some v) : ∃ mop ∈ txn, mop.written = some (k, v) ∧ mop.Succeeds := by
  have hset : ∀ (m : Dict κ ν) mop k₀ v₀, mop ∈ txn → mop.written = some (k₀, v₀) → mop.Succeeds →
      (∀ k v, m.get? k = some v → ∃ mop ∈ txn, mop.written = some (k, v) ∧ mop.Succeeds) →
      ∀ k v, (m.set k₀ v₀).get? k = some v →
      ∃ mop ∈ txn, mop.written = some (k, v) ∧ mop.Succeeds := by
    intro m mop k₀ v₀ hm hw hsucc hI k v hk
    rw [Dict.get?_set] at hk
    split at hk
    · rename_i he
      cases hk
      exact ⟨mop, hm, he ▸ hw, hsucc⟩
    · exact hI k v hk
  refine foldlM_invariant
    (fun m : Dict κ ν => ∀ k v, m.get? k = some v →
      ∃ mop ∈ txn, mop.written = some (k, v) ∧ mop.Succeeds)
    (fun m mop m' hm hI hs => ?_) (by simp) h k v hk
  cases mop with
  | w k₀ v₀ succ =>
    cases hs
    cases succ with
    | false => exact hI
    | true => exact hset m _ k₀ v₀ hm rfl rfl hI
  | i k₀ v₀ r₀ dead succ =>
    cases hs
    cases succ with
    | false => exact hI
    | true => exact hset m _ k₀ v₀ hm rfl rfl hI
  | d k₀ v₀ r₀ dead succ =>
    rw [extWritesStep, bind_eq_ok] at hs
    obtain ⟨_, _, he⟩ := hs
    cases he
    exact hset m _ k₀ v₀ hm rfl trivial hI
  | append k₀ v₀ =>
    cases hs
    exact hset m _ k₀ v₀ hm rfl trivial hI
  | r | range =>
    cases hs
    exact hI

/-- An external write is a write of the transaction. -/
theorem extWritesFn_written {txn : List (Mop κ ν)} {m : Dict κ ν} (h : extWritesFn txn = .ok m)
    {k : κ} {v : ν} (hk : m.get? k = some v) : ∃ mop ∈ txn, mop.written = some (k, v) := by
  obtain ⟨mop, hm, hw, _⟩ := extWritesFn_succeeds h hk
  exact ⟨mop, hm, hw⟩

theorem extWritesFn_total {txn : List (Mop κ ν)} (h : ∀ mop ∈ txn, mop.Admissible) :
    ∃ m, extWritesFn txn = .ok m := by
  obtain ⟨m, hm, _⟩ :=
    foldlM_total (fun _ => True) (f := extWritesStep) (l := txn) (s := Dict.empty)
    (fun m mop hmop _ => by
      cases mop with
      | d k v r dead succ =>
        obtain rfl : succ = true := h _ hmop
        exact ⟨_, rfl, trivial⟩
      | w | i | r | range | append => exact ⟨_, rfl, trivial⟩) trivial
  exact ⟨m, hm⟩

theorem extReadsRecord_total {k1 k2 : Option κ} {rs : List (Record κ ν)}
    (h : ∀ item ∈ rs, assertBounds k1 k2 item.id = .ok ()) (st : ReadState κ ν) :
    ∃ st', rs.foldlM (extReadsRecord k1 k2) st = .ok st' := by
  obtain ⟨st', hs, _⟩ := foldlM_total (fun _ => True) (f := extReadsRecord k1 k2) (s := st)
    (fun st item hi _ => ⟨_, by rw [extReadsRecord, h item hi, ok_bind], trivial⟩) trivial
  exact ⟨st', hs⟩

theorem extReadsFn_total {txn : List (Mop κ ν)} (h : ∀ mop ∈ txn, mop.Admissible) :
    ∃ m, extReadsFn txn = .ok m := by
  obtain ⟨st, hst, _⟩ := foldlM_total (fun _ => True) (f := extReadsStep) (l := txn)
    (s := ⟨[], Dict.empty⟩) (fun st mop hmop _ => by
      have ha := h mop hmop
      cases mop with
      | range k1 k2 rs dead fin =>
        obtain ⟨st₁, h₁⟩ :=
          extReadsRecord_total (fun item hi => ha item (List.mem_append_left _ hi)) st
        obtain ⟨st₂, h₂⟩ :=
          extReadsRecord_total (fun item hi => ha item (List.mem_append_right _ hi)) st₁
        exact ⟨st₂, by rw [extReadsStep, h₁, ok_bind, h₂], trivial⟩
      | i k v r dead succ | d k v r dead succ =>
        obtain rfl : succ = true := ha
        refine ⟨st.see k r, ?_, trivial⟩
        rw [extReadsStep]
        split <;> rfl
      | w | r | append => exact ⟨_, rfl, trivial⟩) trivial
  exact ⟨st.map, by rw [extReadsFn, hst, ok_bind]⟩

end External

variable [DecidableEq ν]

section Positions

/-- The common loop body of `all_upsert_fn` and `all_writes_fn`: a selected
micro-operation must be the first with its version, and is kept or not. -/
def recordStep (sel : Mop κ ν → Option (κ × ν × Bool)) (m : Dict κ (Dict ν Nat))
    (p : Mop κ ν × Nat) :
    Except Err (Dict κ (Dict ν Nat)) :=
  match sel p.1 with
  | some (k, v, keep) => allWrite m k v keep p.2
  | none => .ok m

def upsertSel : Mop κ ν → Option (κ × ν × Bool)
  | .w k v _ => some (k, v, true)
  | _ => none

def writeSel : Mop κ ν → Option (κ × ν × Bool)
  | .w k v succ => some (k, v, succ)
  | .i k v _ _ succ => some (k, v, succ)
  | .d k v _ _ succ => some (k, v, succ)
  | .append k v => some (k, v, false)
  | _ => none

theorem allUpsertFn_eq (txn : List (Mop κ ν)) :
    allUpsertFn txn = txn.zipIdx.foldlM (recordStep upsertSel) Dict.empty := by
  have h : (allUpsertStep : Dict κ (Dict ν Nat) → Mop κ ν × Nat → _) = recordStep upsertSel := by
    funext m p
    obtain ⟨mop, j⟩ := p
    cases mop <;> simp [allUpsertStep, recordStep, upsertSel, allWrite]
  rw [allUpsertFn, h]

theorem allWritesFn_eq (txn : List (Mop κ ν)) :
    allWritesFn txn = txn.zipIdx.foldlM (recordStep writeSel) Dict.empty := by
  have h : (allWritesStep : Dict κ (Dict ν Nat) → Mop κ ν × Nat → _) = recordStep writeSel := by
    funext m p
    obtain ⟨mop, j⟩ := p
    cases mop <;> rfl
  rw [allWritesFn, h]

variable {sel : Mop κ ν → Option (κ × ν × Bool)}

theorem allWrite_eq_ok {m m' : Dict κ (Dict ν Nat)} {k : κ} {v : ν} {keep : Bool} {j : Nat} :
    allWrite m k v keep j = .ok m' ↔
      m.get2? k v = none ∧ m' = if keep then m.set2 k v j else m := by
  rw [allWrite, bind_eq_ok]
  simp only [require_eq_ok, Option.isNone_iff_eq_none, exists_const, Except.ok.injEq]
  rw [@eq_comm _ m']

theorem record_spec {ps : List (Mop κ ν × Nat)} {m m' : Dict κ (Dict ν Nat)}
    (h : ps.foldlM (recordStep sel) m = .ok m') (k : κ) (v : ν) (j : Nat) :
    m'.get2? k v = some j ↔ m.get2? k v = some j ∨
      ∃ mop, (mop, j) ∈ ps ∧ sel mop = some (k, v, true) := by
  induction ps generalizing m with
  | nil =>
    cases h
    simp
  | cons p ps ih =>
    rw [List.foldlM_cons, bind_eq_ok] at h
    obtain ⟨m₁, h₁, h₂⟩ := h
    have hhead : m₁.get2? k v = some j ↔
        m.get2? k v = some j ∨ (j = p.2 ∧ sel p.1 = some (k, v, true)) := by
      rw [recordStep] at h₁
      cases hs : sel p.1 with
      | none =>
        rw [hs] at h₁
        cases h₁
        simp
      | some t =>
        obtain ⟨k₀, v₀, keep⟩ := t
        rw [hs] at h₁
        obtain ⟨hn, rfl⟩ := allWrite_eq_ok.mp h₁
        cases keep with
        | false => simp
        | true =>
          simp only [if_true, Dict.get2?_set2, Option.some.injEq, Prod.mk.injEq, and_true]
          split
          · rename_i he
            rw [he.1, he.2, hn]
            simp [eq_comm]
          · rename_i he
            rw [eq_comm (a := k₀), eq_comm (a := v₀)]
            simp [he]
    rw [ih h₂, hhead, or_assoc]
    refine or_congr Iff.rfl ⟨?_, ?_⟩
    · rintro (⟨rfl, hs⟩ | ⟨mop, hm, hs⟩)
      · exact ⟨p.1, List.mem_cons_self, hs⟩
      · exact ⟨mop, List.mem_cons_of_mem p hm, hs⟩
    · rintro ⟨mop, hm, hs⟩
      rcases List.mem_cons.mp hm with rfl | hm
      · exact .inl ⟨rfl, hs⟩
      · exact .inr ⟨mop, hm, hs⟩

/-- The loop completes when no version occurs twice. -/
theorem record_total {ps : List (Mop κ ν × Nat)} {m : Dict κ (Dict ν Nat)}
    (hp : ps.Pairwise (fun p q => ∀ k v b b', sel p.1 = some (k, v, b) → sel q.1 ≠ some (k, v, b')))
    (hm : ∀ p ∈ ps, ∀ k v b, sel p.1 = some (k, v, b) → m.get2? k v = none) :
    ∃ m', ps.foldlM (recordStep sel) m = .ok m' := by
  induction ps generalizing m with
  | nil => exact ⟨m, rfl⟩
  | cons p ps ih =>
    obtain ⟨hp₁, hp₂⟩ := List.pairwise_cons.mp hp
    cases hs : sel p.1 with
    | none =>
      rw [List.foldlM_cons, recordStep, hs, ok_bind]
      exact ih hp₂ (fun q hq => hm q (List.mem_cons_of_mem p hq))
    | some t =>
      obtain ⟨k₀, v₀, keep⟩ := t
      have h₁ : allWrite m k₀ v₀ keep p.2 = .ok (if keep then m.set2 k₀ v₀ p.2 else m) :=
        allWrite_eq_ok.mpr ⟨hm p List.mem_cons_self k₀ v₀ keep hs, rfl⟩
      rw [List.foldlM_cons, recordStep, hs]
      simp only [h₁, ok_bind]
      apply ih hp₂
      intro q hq k v b hk
      have hold := hm q (List.mem_cons_of_mem p hq) k v b hk
      cases keep with
      | false => exact hold
      | true =>
        simp only [if_true]
        rw [Dict.get2?_set2, if_neg]
        · exact hold
        · rintro ⟨rfl, rfl⟩
          exact hp₁ q hq k v true b hs hk

omit [LinearOrder κ] [DecidableEq ν] in
theorem pairwise_zipIdx {txn : List (Mop κ ν)}
    (hsel : ∀ mop k v b, sel mop = some (k, v, b) → mop.written = some (k, v))
    (hu : ∀ (j j' : Nat) (mop mop' : Mop κ ν) k v, txn[j]? = some mop → txn[j']? = some mop' →
      mop.written = some (k, v) → mop'.written = some (k, v) → j = j') :
    txn.zipIdx.Pairwise
      (fun p q => ∀ k v b b', sel p.1 = some (k, v, b) → sel q.1 ≠ some (k, v, b')) := by
  have hn : txn.zipIdx.Pairwise (fun p q => p.2 ≠ q.2) := by
    have : (List.range' 0 txn.length).Nodup := List.nodup_range'
    rw [← List.zipIdx_map_snd] at this
    exact List.pairwise_map.mp this
  refine hn.imp_of_mem (fun {p q} hp hq hne k v b b' h h' => hne ?_)
  exact hu p.2 q.2 p.1 q.1 k v (List.mk_mem_zipIdx_iff_getElem?.mp hp)
    (List.mk_mem_zipIdx_iff_getElem?.mp hq) (hsel _ _ _ _ h) (hsel _ _ _ _ h')

end Positions

section Internal

/-- Reads, writes and range queries: what `check_INT` is run on. -/
def Mop.Simple : Mop κ ν → Prop
  | .r _ _ _ => True
  | .w _ _ succ => succ = true
  | .range k1 k2 _ _ _ => k1.isSome ∧ k2.isSome
  | _ => False

instance : (mop : Mop κ ν) → Decidable mop.Simple
  | .r _ _ _ => .isTrue trivial
  | .w _ _ succ => inferInstanceAs (Decidable (succ = true))
  | .range k1 k2 _ _ _ => inferInstanceAs (Decidable (k1.isSome ∧ k2.isSome))
  | .i _ _ _ _ _ => .isFalse id
  | .d _ _ _ _ _ => .isFalse id
  | .append _ _ => .isFalse id

/-- Reads, writes that may fail, and range queries. -/
def Mop.Basic : Mop κ ν → Prop
  | .r _ _ _ => True
  | .w _ _ _ => True
  | .range _ _ _ _ _ => True
  | _ => False

omit [LinearOrder κ] [DecidableEq ν] in
theorem Mop.Simple.basic {mop : Mop κ ν} (h : mop.Simple) : mop.Basic := by
  cases mop with
  | r | w | range => trivial
  | i | d | append => exact h

/-- No version is upserted both with and without success. -/
def Decided (txn : List (Mop κ ν)) : Prop :=
  ∀ (j j' : Nat) (k : κ) (v : ν) (b : Bool), txn[j]? = some (.w k v true) →
    txn[j']? = some (.w k v b) → b = true

theorem checkINT_each {txn : List (Mop κ ν)} {b : Bool} (h : checkINT txn = .ok b) {n : Nat}
    {mop : Mop κ ν}
    (hn : txn[n]? = some mop) : ∃ lastRw lastRw',
    intStep (intWrites txn) lastRw (mop, n) = .ok lastRw' := by
  rw [checkINT, bind_eq_ok] at h
  obtain ⟨r, hr, _⟩ := h
  obtain ⟨t, t', ht⟩ := foldlM_each hr (mop, n)
    (List.mk_mem_zipIdx_iff_getElem?.mpr hn)
  exact ⟨t, t', ht⟩

/-- One iteration of the first pass. -/
def intWritesStep (writes : Dict (κ × ν) Nat) (p : Mop κ ν × Nat) : Dict (κ × ν) Nat :=
  match p.1 with
  | .w k v _ => writes.set (k, v) p.2
  | _ => writes

theorem get?_intWritesStep {d : Dict (κ × ν) Nat} {p : Mop κ ν × Nat} {k : κ} {v : ν} {j : Nat}
    (h : (intWritesStep d p).get? (k, v) = some j) : d.get? (k, v) = some j ∨
    ∃ b, p = (.w k v b, j) := by
  obtain ⟨mop, n⟩ := p
  cases mop with
  | w k₀ v₀ b₀ =>
    rw [intWritesStep, Dict.get?_set] at h
    split at h
    · rename_i he
      cases he
      cases h
      exact .inr ⟨b₀, rfl⟩
    · exact .inl h
  | r | i | d | range | append => exact .inl h

theorem intWritesStep_keeps {d : Dict (κ × ν) Nat} (p : Mop κ ν × Nat) {k : κ} {v : ν}
    (h : ∃ j, d.get? (k, v) = some j) : ∃ j, (intWritesStep d p).get? (k, v) = some j := by
  obtain ⟨mop, n⟩ := p
  cases mop with
  | w k₀ v₀ b₀ =>
    rw [intWritesStep, Dict.get?_set]
    split
    · exact ⟨n, rfl⟩
    · exact h
  | r | i | d | range | append => exact h

theorem get?_foldl_intWrites {k : κ} {v : ν} (ps : List (Mop κ ν × Nat)) (d : Dict (κ × ν) Nat) :
    (∀ j, (ps.foldl intWritesStep d).get? (k, v) = some j →
      d.get? (k, v) = some j ∨ ∃ b, (.w k v b, j) ∈ ps) ∧
      ((∃ j, d.get? (k, v) = some j) ∨ (∃ j b, (.w k v b, j) ∈ ps) →
        ∃ j, (ps.foldl intWritesStep d).get? (k, v) = some j) := by
  induction ps generalizing d with
  | nil => simp
  | cons p ps ih =>
    obtain ⟨h₁, h₂⟩ := ih (intWritesStep d p)
    constructor
    · intro j hj
      rcases h₁ j hj with hd | ⟨b, hb⟩
      · rcases get?_intWritesStep hd with hd | ⟨b, rfl⟩
        · exact .inl hd
        · exact .inr ⟨b, List.mem_cons_self⟩
      · exact .inr ⟨b, List.mem_cons_of_mem p hb⟩
    · intro h
      rcases h with hd | ⟨j, b, hb⟩
      · exact h₂ (.inl (intWritesStep_keeps p hd))
      · rcases List.mem_cons.mp hb with rfl | hb
        · exact h₂ (.inl ⟨j, Dict.get?_set_same _ _ _⟩)
        · exact h₂ (.inr ⟨j, b, hb⟩)

/-- The position recorded for a version is one where it is written. -/
theorem intWrites_spec {txn : List (Mop κ ν)} {k : κ} {v : ν} :
    (∀ j, (intWrites txn).get? (k, v) = some j → ∃ b, txn[j]? = some (.w k v b)) ∧
      ∀ (j : Nat) b, txn[j]? = some (.w k v b) → ∃ j', (intWrites txn).get? (k, v) = some j' := by
  obtain ⟨h₁, h₂⟩ := get?_foldl_intWrites (k := k) (v := v) txn.zipIdx Dict.empty
  refine ⟨fun j hj => ?_, fun j b hj => ?_⟩
  · rcases h₁ j hj with hd | ⟨b, hb⟩
    · cases hd
    · exact ⟨b, List.mk_mem_zipIdx_iff_getElem?.mp hb⟩
  · exact h₂ (.inr ⟨j, b, List.mk_mem_zipIdx_iff_getElem?.mpr hj⟩)

/-- A valid read is not written later in the transaction. -/
theorem not_later_of_checkValidRead {txn : List (Mop κ ν)} {k : κ} {v : ν} {n : Nat}
    {lastRw : Dict κ ν} {u : Unit} (h : checkValidRead k lastRw v n (intWrites txn) = .ok u) :
    (∀ (j : Nat) b, txn[j]? ≠ some (.w k v b)) ∨ ∃ j b, j ≤ n ∧ txn[j]? = some (.w k v b) := by
  by_cases hw : ∃ (j : Nat) (b : Bool), txn[j]? = some (.w k v b)
  · obtain ⟨j, b, hj⟩ := hw
    obtain ⟨j', hj'⟩ := intWrites_spec.2 j b hj
    obtain ⟨b', hb'⟩ := intWrites_spec.1 j' hj'
    refine .inr ⟨j', b', ?_, hb'⟩
    rw [checkValidRead] at h
    split at h
    · cases h
    · split at h
      · cases h
      · rename_i hn
        rw [hj'] at hn
        simpa using hn
  · push Not at hw
    exact .inl hw

/-- The state of the external-read loop at position `n`: keys written so far are
ignored, and no external read found so far is a version the transaction writes. -/
structure Unwritten (txn : List (Mop κ ν)) (n : Nat) (st : ReadState κ ν) : Prop where
  ignored : ∀ {j k v}, j < n → txn[j]? = some (.w k v true) → k ∈ st.ignore
  unwritten : ∀ {k v}, st.map.get? k = some v → ∀ j : Nat, txn[j]? ≠ some (.w k v true)

theorem Unwritten.see {txn : List (Mop κ ν)} {n : Nat} {st : ReadState κ ν} (hd : Decided txn)
    (h : Unwritten txn n st)
    {k : κ} {v : ν} (hn : ∀ k v, txn[n]? ≠ some (.w k v true)) {lastRw : Dict κ ν} {u : Unit}
    (hv : checkValidRead k lastRw v n (intWrites txn) = .ok u) : Unwritten txn n (st.see k v) := by
  rw [ReadState.see]
  split
  · exact h
  · rename_i hk
    refine ⟨fun hj hw => List.mem_insert_of_mem (h.ignored hj hw), fun {k' v'} hg j hw => ?_⟩
    rw [Dict.get?_set] at hg
    split at hg
    · rename_i he
      cases hg
      subst he
      rcases not_later_of_checkValidRead hv with hno | ⟨j', b', hle, hw'⟩
      · exact hno j true hw
      · obtain rfl := hd j j' _ _ b' hw hw'
        have hlt : j' < n := Nat.lt_of_le_of_ne hle (fun he => hn _ _ (he ▸ hw'))
        exact hk (h.ignored hlt hw')
    · exact h.unwritten hg j hw

omit [DecidableEq ν] in
theorem Unwritten.succ {txn : List (Mop κ ν)} {n : Nat} {st : ReadState κ ν}
    (h : Unwritten txn n st)
    (hn : ∀ k v, txn[n]? ≠ some (.w k v true)) : Unwritten txn (n + 1) st := by
  refine ⟨fun {j k v} hj hw => h.ignored (Nat.lt_of_le_of_ne (Nat.lt_succ_iff.mp hj) ?_) hw,
    h.unwritten⟩
  rintro rfl
  exact hn k v hw

/-- The records of a range query, read one by one. -/
theorem Unwritten.records {txn : List (Mop κ ν)} {n : Nat} {st st' : ReadState κ ν}
    (hd : Decided txn)
    (h : Unwritten txn n st) (hn : ∀ k v, txn[n]? ≠ some (.w k v true)) {k1 k2 : Option κ}
    {rs : List (Record κ ν)}
    (hrs : ∀ item ∈ rs, ∃ lastRw, checkValidRead item.id lastRw item.val n (intWrites txn) = .ok ())
    (hs : rs.foldlM (extReadsRecord k1 k2) st = .ok st') : Unwritten txn n st' := by
  refine foldlM_invariant (Unwritten txn n) (fun st item st' hi hu hst => ?_) h hs
  rw [extReadsRecord, bind_eq_ok] at hst
  obtain ⟨_, _, he⟩ := hst
  cases he
  obtain ⟨lastRw, hv⟩ := hrs item hi
  exact hu.see hd hn hv

/-- What `check_INT` has checked about the records of a range query. -/
theorem intStep_range {writes : Dict (κ × ν) Nat} {lastRw lastRw' : Dict κ ν} {k1 k2 : Option κ}
    {rs dead : List (Record κ ν)} {fin : Option Bool} {n : Nat}
    (h : intStep writes lastRw (.range k1 k2 rs dead fin, n) = .ok lastRw') :
    ∀ item ∈ rs ++ dead, inBetween item.id k1 k2 = true ∧
      ∃ last, checkValidRead item.id last item.val n writes = .ok () := by
  rw [intStep, bind_eq_ok] at h
  obtain ⟨mid, h₁, h₂⟩ := h
  intro item hi
  rcases List.mem_append.mp hi with hi | hi
  · obtain ⟨t, t', ht⟩ := foldlM_each h₁ item hi
    rw [bind_eq_ok] at ht
    obtain ⟨_, hb, ht⟩ := ht
    rw [intRecord, bind_eq_ok] at ht
    obtain ⟨_, hv, _⟩ := ht
    exact ⟨require_eq_ok.mp hb, t, hv⟩
  · obtain ⟨t, t', ht⟩ := foldlM_each h₂ item hi
    rw [bind_eq_ok] at ht
    obtain ⟨_, hb, ht⟩ := ht
    rw [intRecord, bind_eq_ok] at ht
    obtain ⟨_, hv, _⟩ := ht
    exact ⟨inBetween_of_assertBounds hb, t, hv⟩

omit [DecidableEq ν] in
theorem assertBounds_of_inBetween {k1 k2 : Option κ} {k : κ} (h1 : k1.isSome) (h2 : k2.isSome)
    (h : inBetween k k1 k2 = true) : assertBounds k1 k2 k = .ok () := by
  obtain ⟨a, rfl⟩ := Option.isSome_iff_exists.mp h1
  obtain ⟨b, rfl⟩ := Option.isSome_iff_exists.mp h2
  simp only [inBetween, decide_eq_true_eq] at h
  exact assertBounds_eq_ok.mpr ⟨a, b, rfl, rfl, h⟩

theorem admissible_range {txn : List (Mop κ ν)} {b : Bool} (h : checkINT txn = .ok b)
    {k1 k2 : Option κ}
    {rs dead : List (Record κ ν)} {fin : Option Bool} (hm : .range k1 k2 rs dead fin ∈ txn)
    (h1 : k1.isSome) (h2 : k2.isSome) :
    (Mop.range k1 k2 rs dead fin).Admissible := by
  obtain ⟨n, hn⟩ := List.mem_iff_getElem?.mp hm
  obtain ⟨last, last', hstep⟩ := checkINT_each h hn
  exact fun item hi => assertBounds_of_inBetween h1 h2 (intStep_range hstep item hi).1

/-- `check_INT` makes the assertions of the builders hold. -/
theorem admissible_of_checkINT {txn : List (Mop κ ν)} {b : Bool} (h : checkINT txn = .ok b)
    (hs : ∀ mop ∈ txn, mop.Simple) : ∀ mop ∈ txn, mop.Admissible := by
  intro mop hm
  have hsimple := hs mop hm
  cases mop with
  | range => exact admissible_range h hm hsimple.1 hsimple.2
  | r | w | append => trivial
  | i | d => exact False.elim hsimple

/-- After `check_INT`, no external read is a version that the transaction writes
with success. -/
theorem not_succeeded_of_checkINT {txn : List (Mop κ ν)} {b : Bool} (h : checkINT txn = .ok b)
    (hs : ∀ mop ∈ txn, mop.Basic) (hd : Decided txn) {m : Dict κ ν} (hr : extReadsFn txn = .ok m)
    {k : κ} {v : ν} (hk : m.get? k = some v) (j : Nat) : txn[j]? ≠ some (.w k v true) := by
  rw [extReadsFn, bind_eq_ok] at hr
  obtain ⟨st, hst, he⟩ := hr
  cases he
  have hinit : Unwritten txn 0 ⟨[], Dict.empty⟩ :=
    ⟨fun hj => absurd hj (Nat.not_lt_zero _), fun hg => by simp at hg⟩
  have hend := foldlM_indexed (Unwritten txn) (fun n st mop st' hn hu hstep => ?_) hinit hst
  · exact hend.unwritten hk j
  · obtain ⟨last, last', hint⟩ := checkINT_each h hn
    have hbasic := hs mop (List.mem_of_getElem? hn)
    cases mop with
    | w k' v' b' =>
      cases hstep
      cases b' with
      | false => exact hu.succ (by simp [hn])
      | true =>
        refine ⟨fun {j k v} hj hw => ?_, hu.unwritten⟩
        rcases Nat.lt_or_eq_of_le (Nat.lt_succ_iff.mp hj) with hlt | rfl
        · exact List.mem_insert_of_mem (hu.ignored hlt hw)
        · rw [hn] at hw
          cases hw
          exact List.mem_insert_self
    | r k' v' dead =>
      have hno : ∀ k v, txn[n]? ≠ some (.w k v true) := by simp [hn]
      cases hstep
      rw [intStep, bind_eq_ok] at hint
      obtain ⟨_, hv, _⟩ := hint
      exact (hu.see hd hno hv).succ hno
    | range k1 k2 rs dead fin =>
      have hno : ∀ k v, txn[n]? ≠ some (.w k v true) := by simp [hn]
      have hval := intStep_range hint
      rw [extReadsStep, bind_eq_ok] at hstep
      obtain ⟨mid, h₁, h₂⟩ := hstep
      have hmid := hu.records hd hno (fun item hi => (hval item (List.mem_append_left _ hi)).2) h₁
      exact (hmid.records hd hno
        (fun item hi => (hval item (List.mem_append_right _ hi)).2) h₂).succ hno
    | i | d | append => exact False.elim hbasic

end Internal

section Histories

/-- Micro-operation `j` of transaction `i` writes the version `v` of `k`. -/
def WrittenAt (H : List (Entry (Mop κ ν))) (i j : Nat) (k : κ) (v : ν) : Prop :=
  ∃ txn mop, TxnAt H i txn ∧ txn[j]? = some mop ∧ mop.written = some (k, v)

/-- No version of a key is written twice. -/
def UniqueWrites (H : List (Entry (Mop κ ν))) : Prop :=
  ∀ i j i' j' k v, WrittenAt H i j k v → WrittenAt H i' j' k v → i = i' ∧ j = j'

/-- Transaction `i` upserts `k` with its micro-operation `j`. -/
def UpsertAt (H : List (Entry (Mop κ ν))) (i j : Nat) (k : κ) : Prop :=
  ∃ txn v succ, TxnAt H i txn ∧ txn[j]? = some (.w k v succ)

def RangeAt (H : List (Entry (Mop κ ν))) (i j : Nat) (k1 k2 : Option κ)
    (rs dead : List (Record κ ν)) : Prop :=
  ∃ txn fin, TxnAt H i txn ∧ txn[j]? = some (.range k1 k2 rs dead fin)

variable {H : List (Entry (Mop κ ν))}

omit [LinearOrder κ] [DecidableEq ν] in
theorem uniqueWrites_iff : UniqueWrites H ↔
    ∀ p ∈ txns H, ∀ q ∈ txns H, ∀ a ∈ p.1.zipIdx, ∀ b ∈ q.1.zipIdx,
    a.1.written ≠ none → a.1.written = b.1.written → p.2 = q.2 ∧ a.2 = b.2 := by
  constructor
  · intro h p hp q hq a ha b hb hne he
    obtain ⟨⟨k, v⟩, hkv⟩ := Option.ne_none_iff_exists'.mp hne
    exact h p.2 a.2 q.2 b.2 k v
      ⟨p.1, a.1, (mem_txns H _ _).mp hp, List.mk_mem_zipIdx_iff_getElem?.mp ha, hkv⟩
      ⟨q.1, b.1, (mem_txns H _ _).mp hq, List.mk_mem_zipIdx_iff_getElem?.mp hb, he ▸ hkv⟩
  · rintro h i j i' j' k v ⟨txn, mop, ht, hj, hw⟩ ⟨txn', mop', ht', hj', hw'⟩
    exact h (txn, i) ((mem_txns H _ _).mpr ht) (txn', i') ((mem_txns H _ _).mpr ht')
      (mop, j) (List.mk_mem_zipIdx_iff_getElem?.mpr hj) (mop', j')
        (List.mk_mem_zipIdx_iff_getElem?.mpr hj')
      (by simp [hw]) (hw.trans hw'.symm)

omit [LinearOrder κ] [DecidableEq ν] in
theorem WrittenAt.of_mem {i : Nat} {txn : List (Mop κ ν)} (ht : TxnAt H i txn) {mop : Mop κ ν}
    (hm : mop ∈ txn)
    {k : κ} {v : ν} (hw : mop.written = some (k, v)) : ∃ j, WrittenAt H i j k v := by
  obtain ⟨j, hj⟩ := List.mem_iff_getElem?.mp hm
  exact ⟨j, txn, mop, ht, hj, hw⟩

omit [DecidableEq ν] in
theorem UniqueWrites.ext (hU : UniqueWrites H) {i i' : Nat} {k : κ} {v : ν}
    (h : Has extWritesFn H i k v) (h' : Has extWritesFn H i' k v) : i = i' := by
  obtain ⟨txn, m, ht, hm, hv⟩ := h
  obtain ⟨txn', m', ht', hm', hv'⟩ := h'
  obtain ⟨mop, hmop, hw⟩ := extWritesFn_written hm hv
  obtain ⟨mop', hmop', hw'⟩ := extWritesFn_written hm' hv'
  obtain ⟨j, hj⟩ := WrittenAt.of_mem ht hmop hw
  obtain ⟨j', hj'⟩ := WrittenAt.of_mem ht' hmop' hw'
  exact (hU _ _ _ _ _ _ hj hj').1

omit [LinearOrder κ] [DecidableEq ν] in
/-- Unique versions are in particular decided within every transaction. -/
theorem UniqueWrites.decided (hU : UniqueWrites H) {i : Nat} {txn : List (Mop κ ν)}
    (ht : TxnAt H i txn) :
    Decided txn := by
  intro j j' k v b hj hj'
  have hpos := (hU i j i j' k v ⟨txn, _, ht, hj, rfl⟩ ⟨txn, _, ht, hj', rfl⟩).2
  rw [← hpos, hj] at hj'
  cases hj'
  rfl

/-- After `check_INT`, no transaction externally reads a version of its own. -/
theorem apart_of_checkINT (hU : UniqueWrites H)
    (hINT : ∀ i txn, TxnAt H i txn → checkINT txn = .ok true)
    (hb : ∀ i txn, TxnAt H i txn → ∀ mop ∈ txn, mop.Basic) (i : Nat) (k : κ) (v : ν)
    (hr : Has extReadsFn H i k v) :
    ¬ Has extWritesFn H i k v := by
  intro hw
  obtain ⟨txn, m, ht, hm, hk⟩ := hr
  obtain ⟨txn', m', ht', hm', hk'⟩ := hw
  obtain rfl := ht.unique ht'
  obtain ⟨mop, hmop, hwritten, hsucc⟩ := extWritesFn_succeeds hm' hk'
  obtain ⟨j, hj⟩ := List.mem_iff_getElem?.mp hmop
  have hbasic := hb i txn ht mop hmop
  cases mop with
  | w k' v' b =>
    obtain rfl : b = true := hsucc
    cases hwritten
    exact not_succeeded_of_checkINT (hINT i txn ht) (hb i txn ht) (hU.decided ht) hm hk j hj
  | i | d | append => exact hbasic
  | r | range => cases hwritten

section Record

variable {sel : Mop κ ν → Option (κ × ν × Bool)}
  {recordFn : List (Mop κ ν) → Except Err (Dict κ (Dict ν Nat))}
  (heq : ∀ txn, recordFn txn = txn.zipIdx.foldlM (recordStep sel) Dict.empty)
include heq

theorem recordFn_spec {txn : List (Mop κ ν)} {m : Dict κ (Dict ν Nat)} (h : recordFn txn = .ok m)
    (k : κ) (v : ν)
    (j : Nat) : m.get2? k v = some j ↔ ∃ mop, txn[j]? = some mop ∧ sel mop = some (k, v, true) := by
  rw [heq] at h
  rw [record_spec h]
  simp [List.mk_mem_zipIdx_iff_getElem?]

variable (hsel : ∀ mop k v b, sel mop = some (k, v, b) → mop.written = some (k, v))
include hsel

theorem recordFn_total (hU : UniqueWrites H) {i : Nat} {txn : List (Mop κ ν)} (ht : TxnAt H i txn) :
    ∃ m, recordFn txn = .ok m := by
  rw [heq]
  apply record_total
  · refine pairwise_zipIdx hsel (fun j j' mop mop' k v hj hj' hw hw' => ?_)
    exact (hU i j i j' k v ⟨txn, mop, ht, hj, hw⟩ ⟨txn, mop', ht, hj', hw'⟩).2
  · intros
    rfl

/-- Unique versions let both position indices be built. -/
theorem recordIndex_total (hL : Loaded H) (hU : UniqueWrites H) :
    ∃ idx, allIndex H recordFn = .ok idx := by
  apply allIndex_total hL (fun i txn ht => recordFn_total heq hsel hU ht)
  rintro i j i' j' k v ⟨txn, m, ht, hm, hk⟩ ⟨txn', m', ht', hm', hk'⟩
  obtain ⟨mop, hj, hs⟩ := (recordFn_spec heq hm k v j).mp hk
  obtain ⟨mop', hj', hs'⟩ := (recordFn_spec heq hm' k v j').mp hk'
  exact (hU i j i' j' k v ⟨txn, mop, ht, hj, hsel _ _ _ _ hs⟩
    ⟨txn', mop', ht', hj', hsel _ _ _ _ hs'⟩).1

end Record

theorem upserts_total (hL : Loaded H) (hU : UniqueWrites H) :
    ∃ idx, allIndex H allUpsertFn = .ok idx := by
  refine recordIndex_total allUpsertFn_eq (fun mop k v b h => ?_) hL hU
  cases mop <;> simp_all [upsertSel, Mop.written]

theorem writes_total (hL : Loaded H) (hU : UniqueWrites H) :
    ∃ idx, allIndex H allWritesFn = .ok idx := by
  refine recordIndex_total allWritesFn_eq (fun mop k v b h => ?_) hL hU
  cases mop <;> simp_all [writeSel, Mop.written]

theorem mem_upserts {idx : Positions κ ν} (h : allIndex H allUpsertFn = .ok idx) (k : κ)
    (i j : Nat) :
    (i, j) ∈ kUpsertsFn idx k ↔ UpsertAt H i j k := by
  rw [mem_kUpsertsFn (allIndex_spec h)]
  constructor
  · rintro ⟨v, txn, m, ht, hm, hk⟩
    obtain ⟨mop, hj, hs⟩ := (recordFn_spec allUpsertFn_eq hm k v j).mp hk
    cases mop with
    | w k' v' succ =>
      cases hs
      exact ⟨txn, v, succ, ht, hj⟩
    | r | i | d | range | append => cases hs
  · rintro ⟨txn, v, succ, ht, hj⟩
    obtain ⟨m, hm⟩ := allIndex_each h ht
    exact ⟨v, txn, m, ht, hm, (recordFn_spec allUpsertFn_eq hm k v j).mpr ⟨_, hj, rfl⟩⟩

/-- A loop that collects a set over all transactions. -/
theorem collect_spec {α μ : Type} [BEq α] [LawfulBEq α] {H : List (Entry μ)}
    {g : List μ → Nat → List α}
    {r : List α}
    (h : (do let ps ← numbered H; ps.foldlM (onTxn (fun s txn i => .ok (s ∪ g txn i))) []) = .ok r)
    (a : α) : a ∈ r ↔ ∃ i txn, TxnAt H i txn ∧ a ∈ g txn i := by
  have hL := loaded_of_loop h
  rw [loop_eq hL] at h
  have key : ∀ (ts : List (List μ × Nat)) (s r : List α),
      ts.foldlM (fun s p => .ok (s ∪ g p.1 p.2)) s = (.ok r : Except Err _) →
      (a ∈ r ↔ a ∈ s ∨ ∃ p ∈ ts, a ∈ g p.1 p.2) := by
    intro ts
    induction ts with
    | nil => intro s r h; cases h; simp
    | cons p ts ih =>
      intro s r h
      rw [List.foldlM_cons, ok_bind] at h
      rw [ih _ _ h]
      simp [or_assoc]
  rw [key _ _ _ h]
  simp only [List.not_mem_nil, false_or, Prod.exists, mem_txns]
  exact exists_comm

theorem collect_total {α μ : Type} [BEq α] {H : List (Entry μ)} (hL : Loaded H)
    (g : List μ → Nat → List α) :
    ∃ r, (do let ps ← numbered H; ps.foldlM (onTxn (fun s txn i => .ok (s ∪ g txn i))) []) =
      (.ok r : Except Err (List α)) := by
  rw [loop_eq hL]
  obtain ⟨r, hr, _⟩ := foldlM_total (fun _ => True) (l := txns H)
    (f := fun s p => (.ok (s ∪ g p.1 p.2) : Except Err (List α))) (s := [])
    (fun s p _ _ => ⟨_, rfl, trivial⟩) trivial
  exact ⟨r, hr⟩

omit [DecidableEq ν] in
theorem mem_allKeys {K : List κ} (h : allKeys H = .ok K) (k : κ) :
    k ∈ K ↔ ∃ i txn, TxnAt H i txn ∧ k ∈ keysOf txn :=
  collect_spec (g := fun txn _ => keysOf txn) h k

omit [DecidableEq ν] in
theorem allKeys_total (hL : Loaded H) : ∃ K, allKeys H = .ok K :=
  collect_total hL (fun txn _ => keysOf txn)

omit [LinearOrder κ] [DecidableEq ν] in
theorem mem_rangeQueriesOf (i : Nat) (txn : List (Mop κ ν)) (q : Nat × Nat) :
    q ∈ rangeQueriesOf i txn ↔
      q.1 = i ∧ ∃ k1 k2 rs dead fin, txn[q.2]? = some (.range k1 k2 rs dead fin) := by
  simp only [rangeQueriesOf, List.mem_filterMap, Prod.exists, List.mk_mem_zipIdx_iff_getElem?]
  constructor
  · rintro ⟨mop, j, hj, h⟩
    cases mop with
    | range k1 k2 rs dead fin =>
      cases h
      exact ⟨rfl, k1, k2, rs, dead, fin, hj⟩
    | r | w | i | d | append => cases h
  · rintro ⟨rfl, k1, k2, rs, dead, fin, hj⟩
    exact ⟨_, q.2, hj, rfl⟩

omit [LinearOrder κ] [DecidableEq ν] in
theorem mem_queries {queries : List (Nat × Nat)} (h : getAllRangeQueries H = .ok queries)
    (q : Nat × Nat) :
    q ∈ queries ↔ ∃ k1 k2 rs dead, RangeAt H q.1 q.2 k1 k2 rs dead := by
  have hs := collect_spec (g := fun txn i => rangeQueriesOf i txn) h q
  rw [hs]
  simp only [mem_rangeQueriesOf]
  constructor
  · rintro ⟨i, txn, ht, rfl, k1, k2, rs, dead, fin, hj⟩
    exact ⟨k1, k2, rs, dead, txn, fin, ht, hj⟩
  · rintro ⟨k1, k2, rs, dead, txn, fin, ht, hj⟩
    exact ⟨q.1, txn, ht, rfl, k1, k2, rs, dead, fin, hj⟩

omit [LinearOrder κ] [DecidableEq ν] in
theorem queries_total (hL : Loaded H) : ∃ queries, getAllRangeQueries H = .ok queries :=
  collect_total hL (fun txn i => rangeQueriesOf i txn)

end Histories

end Viper
