import Viper.AdyaSI

/-!
# What the indices hold

Every index of the builders is one loop over the transactions of a history.
`loop_eq` turns such a loop into a fold over the plain list `txns`; each index
then has one specification: which entries it holds, and when it is built
without an exception.
-/
namespace Viper

open Py

section Loops

variable {μ σ : Type}

/-- Transaction `i` of a history, the initial one apart. -/
def TxnAt (H : List (Entry μ)) (i : Nat) (txn : List μ) : Prop :=
  0 < i ∧ ∃ e, H[i]? = some e ∧ e.value = some txn

theorem TxnAt.lt {H : List (Entry μ)} {i : Nat} {txn : List μ} (h : TxnAt H i txn) :
    i < H.length := by
  obtain ⟨_, e, he, _⟩ := h
  exact (List.getElem?_eq_some_iff.mp he).1

theorem TxnAt.unique {H : List (Entry μ)} {i : Nat} {txn txn' : List μ} (h : TxnAt H i txn)
    (h' : TxnAt H i txn') : txn = txn' := by
  obtain ⟨_, e, he, hv⟩ := h
  obtain ⟨_, e', he', hv'⟩ := h'
  rw [he] at he'
  cases he'
  exact Option.some.inj (hv.symm.trans hv')

/-- The transactions of a history with their numbers. -/
def txns (H : List (Entry μ)) : List (List μ × Nat) :=
  (H.tail.zipIdx 1).filterMap (fun p => p.1.value.map (fun txn => (txn, p.2)))

theorem mem_txns (H : List (Entry μ)) (txn : List μ) (i : Nat) :
    (txn, i) ∈ txns H ↔ TxnAt H i txn := by
  simp only [txns, List.mem_filterMap, Option.map_eq_some_iff, Prod.mk.injEq, Prod.exists, TxnAt]
  constructor
  · rintro ⟨e, j, hm, t, hv, rfl, rfl⟩
    obtain ⟨hj, he⟩ := List.mk_mem_zipIdx_iff_le_and_getElem?_sub.mp hm
    rw [List.getElem?_tail, Nat.sub_add_cancel hj] at he
    exact ⟨hj, e, he, hv⟩
  · rintro ⟨hi, e, he, hv⟩
    refine ⟨e, i, ?_, txn, hv, rfl, rfl⟩
    apply List.mk_mem_zipIdx_iff_le_and_getElem?_sub.mpr
    refine ⟨hi, ?_⟩
    rw [List.getElem?_tail, Nat.sub_add_cancel hi]
    exact he

/-- Statements about all transactions are checked on the list of them. -/
theorem forall_txnAt {H : List (Entry μ)} {P : Nat → List μ → Prop} :
    (∀ i txn, TxnAt H i txn → P i txn) ↔ ∀ p ∈ txns H, P p.2 p.1 :=
  ⟨fun h p hp => h p.2 p.1 ((mem_txns H p.1 p.2).mp hp),
    fun h i txn ht => h (txn, i) ((mem_txns H txn i).mpr ht)⟩

theorem nodup_txns (H : List (Entry μ)) : ((txns H).map Prod.snd).Nodup := by
  have hs : ((txns H).map Prod.snd).Sublist ((H.tail.zipIdx 1).map Prod.snd) := by
    rw [txns, List.map_filterMap, ← List.filterMap_eq_map]
    have : ∀ l : List (Entry μ × Nat),
        (l.filterMap (fun p => (p.1.value.map (fun txn => (txn, p.2))).map Prod.snd)).Sublist
          (l.filterMap (some ∘ Prod.snd)) := by
      intro l
      induction l with
      | nil => exact List.Sublist.refl _
      | cons p l ih =>
        cases hv : p.1.value with
        | none => simpa [hv] using ih.trans (List.sublist_cons_self _ _)
        | some txn => simpa [hv] using ih
    exact this _
  refine hs.nodup ?_
  rw [List.zipIdx_map_snd]
  exact List.nodup_range'

/-- Only the first and the last entry may lack a value. -/
def Loaded (H : List (Entry μ)) : Prop := H ≠ [] ∧ ∀ e ∈ H.tail.dropLast, e.value.isSome

/-- The body of a loop over a history. -/
def onTxn (f : σ → List μ → Nat → Except Err σ) (s : σ) (p : Entry μ × Nat) : Except Err σ := do
  let txn ← txnOf p.1
  f s txn p.2

theorem foldlM_onTxn {f : σ → List μ → Nat → Except Err σ} {l : List (Entry μ × Nat)}
    (h : ∀ p ∈ l, p.1.value.isSome) (s : σ) :
    l.foldlM (onTxn f) s = (l.filterMap (fun p => p.1.value.map (fun txn => (txn, p.2)))).foldlM
      (fun s p => f s p.1 p.2) s := by
  induction l generalizing s with
  | nil => rfl
  | cons p l ih =>
    obtain ⟨txn, hv⟩ := Option.isSome_iff_exists.mp (h p List.mem_cons_self)
    simp only [List.foldlM_cons, onTxn, txnOf, hv, ok_bind, Option.map_some, List.filterMap_cons]
    congr 1
    funext s'
    exact ih (fun q hq => h q (List.mem_cons_of_mem p hq)) s'

/-- The numbered entries of a history of at least two entries. -/
theorem numbered_snoc (e₀ e : Entry μ) (init : List (Entry μ)) :
    numbered (e₀ :: (init ++ [e])) =
      .ok (if e.value.isNone then init.zipIdx 1 else (init ++ [e]).zipIdx 1) := by
  have hlast : (e₀ :: (init ++ [e])).getLast? = some e := by
    rw [← List.cons_append, List.getLast?_append]
    rfl
  have hdrop : (e₀ :: (init ++ [e])).dropLast = e₀ :: init := by
    rw [← List.cons_append, List.dropLast_concat]
  simp only [numbered, hlast]
  split
  · rw [hdrop]; rfl
  · rfl

theorem loop_eq {H : List (Entry μ)} (hL : Loaded H) (f : σ → List μ → Nat → Except Err σ) (s : σ) :
    (do let ps ← numbered H; ps.foldlM (onTxn f) s) =
      (txns H).foldlM (fun s p => f s p.1 p.2) s := by
  obtain ⟨hne, hv⟩ := hL
  cases H with
  | nil => exact absurd rfl hne
  | cons e₀ rest =>
    rcases List.eq_nil_or_concat' rest with rfl | ⟨init, e, rfl⟩
    · simp only [numbered, List.getLast?_singleton, txns, List.tail_cons]
      split <;> rfl
    · have hinit : ∀ p ∈ init.zipIdx 1, p.1.value.isSome := by
        intro p hp
        apply hv
        rw [List.tail_cons, List.dropLast_concat]
        exact List.fst_mem_of_mem_zipIdx hp
      rw [numbered_snoc, ok_bind, txns, List.tail_cons, List.zipIdx_append, List.filterMap_append]
      cases he : e.value with
      | none => simp [he, foldlM_onTxn hinit]
      | some txn =>
        rw [if_neg (by simp), foldlM_onTxn, List.filterMap_append]
        intro p hp
        rcases List.mem_append.mp hp with hp | hp
        · exact hinit p hp
        · simp only [List.zipIdx_cons, List.zipIdx_nil, List.mem_singleton] at hp
          rw [hp, he]
          rfl

/-- A completed loop has read every transaction. -/
theorem loaded_of_loop {H : List (Entry μ)} {f : σ → List μ → Nat → Except Err σ} {s r : σ}
    (h : (do let ps ← numbered H; ps.foldlM (onTxn f) s) = .ok r) : Loaded H := by
  rw [bind_eq_ok] at h
  obtain ⟨ps, hn, hf⟩ := h
  have hval : ∀ p ∈ ps, p.1.value.isSome := by
    intro p hp
    obtain ⟨t, t', ht⟩ := foldlM_each hf p hp
    rw [onTxn, bind_eq_ok] at ht
    obtain ⟨txn, htxn, _⟩ := ht
    cases hv : p.1.value with
    | none => simp [txnOf, hv] at htxn
    | some txn => rfl
  cases H with
  | nil => cases hn
  | cons e₀ rest =>
    refine ⟨List.cons_ne_nil _ _, fun e he => ?_⟩
    rcases List.eq_nil_or_concat' rest with rfl | ⟨init, e', rfl⟩
    · cases he
    · rw [List.tail_cons, List.dropLast_concat] at he
      rw [numbered_snoc] at hn
      cases hn
      obtain ⟨j, hj⟩ := List.mem_iff_getElem?.mp he
      have hmem : (e, 1 + j) ∈ init.zipIdx 1 := by
        apply List.mk_mem_zipIdx_iff_le_and_getElem?_sub.mpr
        exact ⟨Nat.le_add_right _ _, by rwa [Nat.add_sub_cancel_left]⟩
      refine hval (e, 1 + j) ?_
      split
      · exact hmem
      · rw [List.zipIdx_append]
        exact List.mem_append_left _ hmem

end Loops

section Transactions

variable {κ ν μ : Type} [LinearOrder κ] [DecidableEq ν]

/-- Transaction `i` has the entry `k ↦ v` in its summary. -/
def Has (extFn : List μ → Except Err (Dict κ ν)) (H : List (Entry μ)) (i : Nat) (k : κ)
    (v : ν) : Prop :=
  ∃ txn m, TxnAt H i txn ∧ extFn txn = .ok m ∧ m.get? k = some v

omit [DecidableEq ν] in
theorem Has.unique {extFn : List μ → Except Err (Dict κ ν)} {H : List (Entry μ)} {i : Nat}
    {k : κ} {v v' : ν} (h : Has extFn H i k v) (h' : Has extFn H i k v') : v = v' := by
  obtain ⟨txn, m, ht, hm, hv⟩ := h
  obtain ⟨txn', m', ht', hm', hv'⟩ := h'
  obtain rfl := ht.unique ht'
  obtain rfl : m = m' := Except.ok.inj (hm.symm.trans hm')
  exact Option.some.inj (hv.symm.trans hv')

omit [DecidableEq ν] in
theorem Has.lt {extFn : List μ → Except Err (Dict κ ν)} {H : List (Entry μ)} {i : Nat}
    {k : κ} {v : ν} (h : Has extFn H i k v) : 0 < i ∧ i < H.length := by
  obtain ⟨txn, m, ht, _, _⟩ := h
  exact ⟨ht.1, ht.lt⟩

/-- An index holds a relation: nonempty sets of transaction numbers. -/
structure IndexOf (idx : Index κ ν) (R : Nat → κ → ν → Prop) : Prop where
  mem : ∀ i k v, i ∈ getIn idx k v ↔ R i k v
  nodup : ∀ {k v l}, idx.get2? k v = some l → l.Nodup
  nonempty : ∀ {k v l}, idx.get2? k v = some l → l ≠ []

theorem indexOf_empty : IndexOf (Dict.empty : Index κ ν) (fun _ _ _ => False) where
  mem i k v := by simp [getIn]
  nodup h := by simp at h
  nonempty h := by simp at h

theorem getIn_addIndex (id : Nat) (idx : Index κ ν) (p : κ × ν) (k : κ) (v : ν) :
    getIn (addIndex id idx p) k v = if k = p.1 ∧ v = p.2 then (getIn idx k v).insert id
      else getIn idx k v := by
  rw [getIn, addIndex, Dict.get2?_set2]
  split
  · rename_i h
    rw [h.1, h.2]
    rfl
  · rfl

theorem IndexOf.add {idx : Index κ ν} {R : Nat → κ → ν → Prop} (h : IndexOf idx R) (id : Nat)
    (p : κ × ν) :
    IndexOf (addIndex id idx p) (fun i k v => R i k v ∨ (i = id ∧ (k, v) = p)) where
  mem i k v := by
    rw [getIn_addIndex, ← h.mem i k v]
    obtain ⟨k', v'⟩ := p
    simp only [Prod.mk.injEq]
    split
    · rename_i he
      rw [List.mem_insert_iff, and_iff_left he]
      exact Or.comm
    · rename_i he
      simp [he]
  nodup {k v l} hl := by
    rw [addIndex, Dict.get2?_set2] at hl
    split at hl
    · cases hl
      apply List.Nodup.insert
      rw [getIn]
      cases hg : idx.get2? p.1 p.2 with
      | none => exact List.nodup_nil
      | some l => exact h.nodup hg
    · exact h.nodup hl
  nonempty {k v l} hl := by
    rw [addIndex, Dict.get2?_set2] at hl
    split at hl
    · cases hl
      exact List.ne_nil_of_mem (List.mem_insert_self (a := id))
    · exact h.nonempty hl

theorem IndexOf.congr {idx : Index κ ν} {R Q : Nat → κ → ν → Prop} (h : IndexOf idx R)
    (he : ∀ i k v, R i k v ↔ Q i k v) : IndexOf idx Q :=
  ⟨fun i k v => (h.mem i k v).trans (he i k v), h.nodup, h.nonempty⟩

/-- The entries of one transaction. -/
theorem IndexOf.addAll {idx : Index κ ν} {R : Nat → κ → ν → Prop} (h : IndexOf idx R) (id : Nat)
    (l : List (κ × ν)) :
    IndexOf (l.foldl (addIndex id) idx) (fun i k v => R i k v ∨ (i = id ∧ (k, v) ∈ l)) := by
  induction l generalizing idx R with
  | nil => exact h.congr (by simp)
  | cons p l ih =>
    refine (ih (h.add id p)).congr (fun i k v => ?_)
    rw [List.mem_cons, or_assoc, and_or_left]

/-- One step of the index loop. -/
def extTxn (extFn : List μ → Except Err (Dict κ ν)) (idx : Index κ ν) (txn : List μ) (i : Nat) :
    Except Err (Index κ ν) := do
  let extMap ← extFn txn
  .ok (extMap.entries.foldl (addIndex i) idx)

theorem extIndex_eq {H : List (Entry μ)} (hL : Loaded H) (extFn : List μ → Except Err (Dict κ ν)) :
    extIndex H extFn = (txns H).foldlM (fun idx p => extTxn extFn idx p.1 p.2) Dict.empty :=
  loop_eq hL (extTxn extFn) Dict.empty

theorem foldlM_extTxn {extFn : List μ → Except Err (Dict κ ν)} {ts : List (List μ × Nat)}
    {idx idx' : Index κ ν} {R : Nat → κ → ν → Prop} (hi : IndexOf idx R)
    (h : ts.foldlM (fun idx p => extTxn extFn idx p.1 p.2) idx = .ok idx') :
    IndexOf idx'
      (fun i k v => R i k v ∨ ∃ txn m, (txn, i) ∈ ts ∧ extFn txn = .ok m ∧ m.get? k = some v) := by
  induction ts generalizing idx R with
  | nil =>
    cases h
    exact hi.congr (by simp)
  | cons p ts ih =>
    rw [List.foldlM_cons, bind_eq_ok] at h
    obtain ⟨idx₁, h₁, h₂⟩ := h
    rw [extTxn, bind_eq_ok] at h₁
    obtain ⟨m, hm, he⟩ := h₁
    cases he
    refine (ih (hi.addAll p.2 m.entries) h₂).congr (fun i k v => ?_)
    rw [or_assoc]
    refine or_congr Iff.rfl ⟨?_, ?_⟩
    · rintro (⟨rfl, hk⟩ | ⟨txn, m', ht, hm', hk⟩)
      · exact ⟨p.1, m, List.mem_cons_self, hm, (m.mem_entries k v).mp hk⟩
      · exact ⟨txn, m', List.mem_cons_of_mem p ht, hm', hk⟩
    · rintro ⟨txn, m', ht, hm', hk⟩
      rcases List.mem_cons.mp ht with rfl | ht
      · cases hm.symm.trans hm'
        exact .inl ⟨rfl, (m.mem_entries k v).mpr hk⟩
      · exact .inr ⟨txn, m', ht, hm', hk⟩

theorem extIndex_spec {H : List (Entry μ)} {extFn : List μ → Except Err (Dict κ ν)}
    {idx : Index κ ν} (h : extIndex H extFn = .ok idx) : IndexOf idx (Has extFn H) := by
  have hL : Loaded H := loaded_of_loop (f := extTxn extFn) h
  rw [extIndex_eq hL] at h
  refine (foldlM_extTxn indexOf_empty h).congr (fun i k v => ?_)
  simp only [false_or, Has, mem_txns]

theorem visits_addAll {idx : Index κ ν} {l : List (κ × ν)} (h : idx.Visits l) (id : Nat)
    (l' : List (κ × ν)) : (l'.foldl (addIndex id) idx).Visits (l ++ l') := by
  induction l' generalizing idx l with
  | nil => simpa using h
  | cons p l' ih =>
    have hp := ih (Dict.visits_set2 h p ((getIn idx p.1 p.2).insert id))
    rw [List.append_assoc, List.singleton_append] at hp
    exact hp

/-- An index is read in the order in which its transactions were summarised. -/
theorem visits_extIndex {H : List (Entry μ)} {extFn : List μ → Except Err (Dict κ ν)}
    {idx : Index κ ν}
    {f : List μ → List (κ × ν)} (hf : ∀ txn m, extFn txn = .ok m → m.entries = f txn)
    (h : extIndex H extFn = .ok idx) : idx.Visits ((txns H).flatMap (fun p => f p.1)) := by
  rw [extIndex_eq (loaded_of_loop (f := extTxn extFn) h)] at h
  refine foldlM_prefix (fun done idx => idx.Visits (done.flatMap (fun p => f p.1)))
    (fun done p _ idx idx' _ hI hp => ?_) Dict.visits_empty h
  rw [extTxn, bind_eq_ok] at hp
  obtain ⟨m, hm, he'⟩ := hp
  cases he'
  rw [List.flatMap_append, List.flatMap_singleton, ← hf p.1 m hm]
  exact visits_addAll hI p.2 m.entries

/-- A completed index has summarised every transaction. -/
theorem extIndex_each {H : List (Entry μ)} {extFn : List μ → Except Err (Dict κ ν)}
    {idx : Index κ ν}
    (h : extIndex H extFn = .ok idx) {i : Nat} {txn : List μ}
    (ht : TxnAt H i txn) : ∃ m, extFn txn = .ok m := by
  rw [extIndex_eq (loaded_of_loop (f := extTxn extFn) h)] at h
  obtain ⟨_, _, hstep⟩ := foldlM_each h _ ((mem_txns H txn i).mpr ht)
  rw [extTxn, bind_eq_ok] at hstep
  obtain ⟨m, hm, _⟩ := hstep
  exact ⟨m, hm⟩

theorem extIndex_total {H : List (Entry μ)} (hL : Loaded H) {extFn : List μ → Except Err (Dict κ ν)}
    (hf : ∀ i txn, TxnAt H i txn → ∃ m, extFn txn = .ok m) : ∃ idx, extIndex H extFn = .ok idx := by
  rw [extIndex_eq hL]
  obtain ⟨idx, h, _⟩ := foldlM_total (fun _ => True) (l := txns H)
    (f := fun idx p => extTxn extFn idx p.1 p.2) (s := Dict.empty) (fun idx p hp _ => by
      obtain ⟨m, hm⟩ := hf p.2 p.1 ((mem_txns H p.1 p.2).mp hp)
      exact ⟨_, by rw [extTxn, hm, ok_bind], trivial⟩) trivial
  exact ⟨idx, h⟩

/-- The union of the sets of a dictionary. -/
theorem mem_unions {α β : Type} [DecidableEq α] (l : List (β × List α)) (w : List α) (a : α) :
    a ∈ l.foldl (fun w p => w ∪ p.2) w ↔ a ∈ w ∨ ∃ p ∈ l, a ∈ p.2 := by
  induction l generalizing w with
  | nil => simp
  | cons p l ih => simp [ih, or_assoc]

theorem nodup_unions {α β : Type} [DecidableEq α] (l : List (β × List α)) {w : List α}
    (hw : w.Nodup)  (hl : ∀ p ∈ l, p.2.Nodup) : (l.foldl (fun w p => w ∪ p.2) w).Nodup := by
  induction l generalizing w with
  | nil => exact hw
  | cons p l ih =>
    exact ih (List.Nodup.union w (hl p List.mem_cons_self))
      (fun q hq => hl q (List.mem_cons_of_mem p hq))

theorem mem_kWritesFn {idx : Index κ ν} {R : Nat → κ → ν → Prop} (h : IndexOf idx R)
    (k : κ) (i : Nat) :
    i ∈ kWritesFn idx k ↔ ∃ v, R i k v := by
  simp only [kWritesFn, ← h.mem, getIn, Dict.get2?]
  cases hk : idx.get? k with
  | none => simp
  | some vs =>
    simp only [mem_unions, List.not_mem_nil, false_or, Option.bind_some, Prod.exists,
      Dict.mem_entries]
    refine exists_congr fun v => ?_
    cases hv : vs.get? v <;> simp

theorem nodup_kWritesFn {idx : Index κ ν} {R : Nat → κ → ν → Prop} (h : IndexOf idx R) (k : κ) :
    (kWritesFn idx k).Nodup := by
  rw [kWritesFn]
  cases hk : idx.get? k with
  | none => exact List.nodup_nil
  | some vs =>
    refine nodup_unions _ List.nodup_nil (fun p hp => h.nodup (k := k) (v := p.1) ?_)
    exact Dict.get2?_eq_some.mpr ⟨vs, (idx.mem_entries k vs).mpr hk, hp⟩

theorem mem_TkSetFn {idx : Index κ ν} {R : Nat → κ → ν → Prop} (h : IndexOf idx R) (k : κ)
    (ex : List Nat) (i : Nat) : i ∈ TkSetFn idx k ex ↔ (∃ v, R i k v) ∧ i ∉ ex := by
  rw [TkSetFn, mem_diff, mem_kWritesFn h]

end Transactions

section Positions

variable {κ ν μ : Type} [LinearOrder κ] [DecidableEq ν]

/-- An index of positions holds a relation between places and values. -/
def PositionsOf (idx : Positions κ ν) (R : Nat → Nat → κ → ν → Prop) : Prop :=
  ∀ k v i j, idx.get2? k v = some (i, j) ↔ R i j k v

theorem addPosition_eq_ok {k : κ} {i : Nat} {idx idx' : Positions κ ν} {p : ν × Nat} :
    addPosition k i idx p = .ok idx' ↔ idx.get2? k p.1 = none ∧ idx' = idx.set2 k p.1 (i, p.2) := by
  rw [addPosition]
  cases h : idx.get2? k p.1 with
  | none => simp [eq_comm]
  | some q => simp

theorem PositionsOf.add {idx idx' : Positions κ ν} {R : Nat → Nat → κ → ν → Prop}
    (hR : PositionsOf idx R)
    {k : κ} {i : Nat} {p : ν × Nat} (h : addPosition k i idx p = .ok idx') :
    PositionsOf idx' (fun i' j k' v => R i' j k' v ∨ (i' = i ∧ k' = k ∧ (v, j) = p)) := by
  obtain ⟨hn, rfl⟩ := addPosition_eq_ok.mp h
  intro k' v i' j
  beta_reduce
  rw [Dict.get2?_set2, ← hR k' v i' j]
  obtain ⟨v₀, j₀⟩ := p
  split
  · rename_i he
    rw [he.1, he.2, hn]
    simp [eq_comm]
  · rename_i he
    simp only [Prod.mk.injEq]
    tauto

theorem PositionsOf.congr {idx : Positions κ ν} {R Q : Nat → Nat → κ → ν → Prop}
    (h : PositionsOf idx R) (he : ∀ i j k v, R i j k v ↔ Q i j k v) : PositionsOf idx Q :=
  fun k v i j => (h k v i j).trans (he i j k v)

theorem PositionsOf.addKey {idx idx' : Positions κ ν} {R : Nat → Nat → κ → ν → Prop}
    (hR : PositionsOf idx R)
    {k : κ} {i : Nat} {l : List (ν × Nat)} (h : l.foldlM (addPosition k i) idx = .ok idx') :
    PositionsOf idx' (fun i' j k' v => R i' j k' v ∨ (i' = i ∧ k' = k ∧ (v, j) ∈ l)) := by
  induction l generalizing idx R with
  | nil => cases h; exact hR.congr (by simp)
  | cons p l ih =>
    rw [List.foldlM_cons, bind_eq_ok] at h
    obtain ⟨idx₁, h₁, h₂⟩ := h
    refine (ih (hR.add h₁) h₂).congr (fun i' j k' v => ?_)
    rw [List.mem_cons]
    tauto

theorem PositionsOf.addMap {idx idx' : Positions κ ν} {R : Nat → Nat → κ → ν → Prop}
    (hR : PositionsOf idx R) {i : Nat} {l : List (κ × Dict ν Nat)}
    (h : l.foldlM (fun idx q => q.2.entries.foldlM (addPosition q.1 i) idx) idx = .ok idx') :
    PositionsOf idx'
      (fun i' j k v => R i' j k v ∨ (i' = i ∧ ∃ d, (k, d) ∈ l ∧ (v, j) ∈ d.entries)) := by
  induction l generalizing idx R with
  | nil => cases h; exact hR.congr (by simp)
  | cons q l ih =>
    rw [List.foldlM_cons, bind_eq_ok] at h
    obtain ⟨idx₁, h₁, h₂⟩ := h
    refine (ih (hR.addKey h₁) h₂).congr (fun i' j k v => ?_)
    rw [or_assoc]
    refine or_congr Iff.rfl ⟨?_, ?_⟩
    · rintro (⟨rfl, rfl, hm⟩ | ⟨rfl, d, hd, hm⟩)
      · exact ⟨rfl, q.2, List.mem_cons_self, hm⟩
      · exact ⟨rfl, d, List.mem_cons_of_mem q hd, hm⟩
    · rintro ⟨rfl, d, hd, hm⟩
      rcases List.mem_cons.mp hd with rfl | hd
      · exact .inl ⟨rfl, rfl, hm⟩
      · exact .inr ⟨rfl, d, hd, hm⟩

/-- One step of the position loop. -/
def allTxn (allFn : List μ → Except Err (Dict κ (Dict ν Nat))) (idx : Positions κ ν)
    (txn : List μ) (i : Nat) :
    Except Err (Positions κ ν) := do
  let allMap ← allFn txn
  allMap.entries.foldlM (fun idx q => q.2.entries.foldlM (addPosition q.1 i) idx) idx

theorem allIndex_eq {H : List (Entry μ)} (hL : Loaded H)
    (allFn : List μ → Except Err (Dict κ (Dict ν Nat))) :
    allIndex H allFn = (txns H).foldlM (fun idx p => allTxn allFn idx p.1 p.2) Dict.empty :=
  loop_eq hL (allTxn allFn) Dict.empty

theorem foldlM_allTxn {allFn : List μ → Except Err (Dict κ (Dict ν Nat))} {ts : List (List μ × Nat)}
    {idx idx' : Positions κ ν} {R : Nat → Nat → κ → ν → Prop} (hR : PositionsOf idx R)
    (h : ts.foldlM (fun idx p => allTxn allFn idx p.1 p.2) idx = .ok idx') :
    PositionsOf idx' (fun i j k v => R i j k v ∨
      ∃ txn m, (txn, i) ∈ ts ∧ allFn txn = .ok m ∧ m.get2? k v = some j) := by
  induction ts generalizing idx R with
  | nil => cases h; exact hR.congr (by simp)
  | cons p ts ih =>
    rw [List.foldlM_cons, bind_eq_ok] at h
    obtain ⟨idx₁, h₁, h₂⟩ := h
    rw [allTxn, bind_eq_ok] at h₁
    obtain ⟨m, hm, h₁⟩ := h₁
    refine (ih (hR.addMap h₁) h₂).congr (fun i j k v => ?_)
    rw [or_assoc, ← Dict.get2?_eq_some]
    refine or_congr Iff.rfl ⟨?_, ?_⟩
    · rintro (⟨rfl, hk⟩ | ⟨txn, m', ht, hm', hk⟩)
      · exact ⟨p.1, m, List.mem_cons_self, hm, hk⟩
      · exact ⟨txn, m', List.mem_cons_of_mem p ht, hm', hk⟩
    · rintro ⟨txn, m', ht, hm', hk⟩
      rcases List.mem_cons.mp ht with rfl | ht
      · cases hm.symm.trans hm'
        exact .inl ⟨rfl, hk⟩
      · exact .inr ⟨txn, m', ht, hm', hk⟩

/-- Micro-operation `j` of transaction `i` has the entry `k ↦ v`. -/
def HasAt (allFn : List μ → Except Err (Dict κ (Dict ν Nat))) (H : List (Entry μ)) (i j : Nat)
    (k : κ) (v : ν) :
    Prop := ∃ txn m, TxnAt H i txn ∧ allFn txn = .ok m ∧ m.get2? k v = some j

theorem allIndex_spec {H : List (Entry μ)} {allFn : List μ → Except Err (Dict κ (Dict ν Nat))}
    {idx : Positions κ ν} (h : allIndex H allFn = .ok idx) : PositionsOf idx (HasAt allFn H) := by
  have hL : Loaded H := loaded_of_loop (f := allTxn allFn) h
  rw [allIndex_eq hL] at h
  have he : PositionsOf (Dict.empty : Positions κ ν) (fun _ _ _ _ => False) :=
    fun k v i j => by simp
  refine (foldlM_allTxn he h).congr (fun i j k v => ?_)
  simp only [false_or, HasAt, mem_txns]

/-- A completed index holds the summary of every transaction. -/
theorem allIndex_each {H : List (Entry μ)} {allFn : List μ → Except Err (Dict κ (Dict ν Nat))}
    {idx : Positions κ ν} (h : allIndex H allFn = .ok idx) {i : Nat} {txn : List μ}
    (ht : TxnAt H i txn) : ∃ m, allFn txn = .ok m := by
  rw [allIndex_eq (loaded_of_loop (f := allTxn allFn) h)] at h
  obtain ⟨_, _, hstep⟩ := foldlM_each h _ ((mem_txns H txn i).mpr ht)
  rw [allTxn, bind_eq_ok] at hstep
  obtain ⟨m, hm, _⟩ := hstep
  exact ⟨m, hm⟩

/-- No two transactions have an entry for the same key and value. -/
theorem HasAt.unique {H : List (Entry μ)} {allFn : List μ → Except Err (Dict κ (Dict ν Nat))}
    {idx : Positions κ ν} (h : allIndex H allFn = .ok idx) {i j i' j' : Nat} {k : κ} {v : ν}
    (hi : HasAt allFn H i j k v) (hi' : HasAt allFn H i' j' k v) : i = i' := by
  have hpos := allIndex_spec h k v
  have hsame := ((hpos i j).mpr hi).symm.trans ((hpos i' j').mpr hi')
  cases hsame
  rfl

theorem addKey_total {k : κ} {i : Nat} {l : List (ν × Nat)} (hn : (l.map Prod.fst).Nodup)
    {idx : Positions κ ν} (h : ∀ p ∈ l, idx.get2? k p.1 = none) :
    ∃ idx', l.foldlM (addPosition k i) idx = .ok idx' := by
  induction l generalizing idx with
  | nil => exact ⟨idx, rfl⟩
  | cons p l ih =>
    rw [List.map_cons, List.nodup_cons] at hn
    have h₁ := addPosition_eq_ok (i := i) |>.mpr ⟨h p List.mem_cons_self, rfl⟩
    rw [List.foldlM_cons, h₁, ok_bind]
    apply ih hn.2
    intro q hq
    have hne : q.1 ≠ p.1 := fun he => hn.1 (he ▸ List.mem_map_of_mem hq)
    rw [Dict.get2?_set2, if_neg (fun he => hne he.2)]
    exact h q (List.mem_cons_of_mem p hq)

theorem addMap_total {i : Nat} {l : List (κ × Dict ν Nat)} (hn : (l.map Prod.fst).Nodup)
    {idx : Positions κ ν} (h : ∀ q ∈ l, ∀ p ∈ q.2.entries, idx.get2? q.1 p.1 = none) :
    ∃ idx', l.foldlM (fun idx q => q.2.entries.foldlM (addPosition q.1 i) idx) idx = .ok idx' := by
  induction l generalizing idx with
  | nil => exact ⟨idx, rfl⟩
  | cons q l ih =>
    rw [List.map_cons, List.nodup_cons] at hn
    obtain ⟨idx₁, h₁⟩ := addKey_total (i := i) q.2.nodup (h q List.mem_cons_self)
    rw [List.foldlM_cons, h₁, ok_bind]
    apply ih hn.2
    intro q' hq' p hp
    have hne : q'.1 ≠ q.1 := fun he => hn.1 (he ▸ List.mem_map_of_mem hq')
    have hold := h q' (List.mem_cons_of_mem q hq') p hp
    refine Option.eq_none_iff_forall_ne_some.mpr (fun x hx => ?_)
    have hpos : PositionsOf idx (fun i j k v => idx.get2? k v = some (i, j)) :=
      fun k v i j => Iff.rfl
    rcases (hpos.addKey h₁ q'.1 p.1 x.1 x.2).mp hx with hx | ⟨_, hk, _⟩
    · rw [hold] at hx; cases hx
    · exact hne hk

/-- No two transactions have an entry for the same key and value. -/
theorem foldlM_allTxn_total {allFn : List μ → Except Err (Dict κ (Dict ν Nat))}
    {ts : List (List μ × Nat)}
    (hn : (ts.map Prod.snd).Nodup) (hf : ∀ p ∈ ts, ∃ m, allFn p.1 = .ok m)
    (hu : ∀ p ∈ ts, ∀ q ∈ ts, ∀ m m' k v j j', allFn p.1 = .ok m → allFn q.1 = .ok m' →
      m.get2? k v = some j → m'.get2? k v = some j' → p.2 = q.2)
    {idx : Positions κ ν}
    (h : ∀ p ∈ ts, ∀ m k v j, allFn p.1 = .ok m → m.get2? k v = some j → idx.get2? k v = none) :
    ∃ idx', ts.foldlM (fun idx p => allTxn allFn idx p.1 p.2) idx = .ok idx' := by
  induction ts generalizing idx with
  | nil => exact ⟨idx, rfl⟩
  | cons p ts ih =>
    rw [List.map_cons, List.nodup_cons] at hn
    obtain ⟨m, hm⟩ := hf p List.mem_cons_self
    have hfree : ∀ q ∈ m.entries, ∀ e ∈ q.2.entries, idx.get2? q.1 e.1 = none := by
      intro q hq e he
      exact h p List.mem_cons_self m q.1 e.1 e.2 hm (Dict.get2?_eq_some.mpr ⟨q.2, hq, he⟩)
    obtain ⟨idx₁, h₁⟩ := addMap_total (i := p.2) m.nodup hfree
    rw [List.foldlM_cons, allTxn, hm, ok_bind, h₁, ok_bind]
    apply ih hn.2 (fun q hq => hf q (List.mem_cons_of_mem p hq))
      (fun q hq r hr => hu q (List.mem_cons_of_mem p hq) r (List.mem_cons_of_mem p hr))
    intro q hq m' k v j hm' hk
    refine Option.eq_none_iff_forall_ne_some.mpr (fun x hx => ?_)
    have hpos : PositionsOf idx (fun i j k v => idx.get2? k v = some (i, j)) :=
      fun k v i j => Iff.rfl
    rcases (hpos.addMap h₁ k v x.1 x.2).mp hx with hx | ⟨_, hd⟩
    · rw [h q (List.mem_cons_of_mem p hq) m' k v j hm' hk] at hx; cases hx
    · have he := hu p List.mem_cons_self q (List.mem_cons_of_mem p hq) m m' k v x.2 j hm hm'
        (Dict.get2?_eq_some.mpr hd) hk
      exact hn.1 (he ▸ List.mem_map_of_mem hq)

theorem allIndex_total {H : List (Entry μ)} (hL : Loaded H)
    {allFn : List μ → Except Err (Dict κ (Dict ν Nat))}
    (hf : ∀ i txn, TxnAt H i txn → ∃ m, allFn txn = .ok m)
    (hu : ∀ i j i' j' k v, HasAt allFn H i j k v → HasAt allFn H i' j' k v → i = i') :
    ∃ idx, allIndex H allFn = .ok idx := by
  rw [allIndex_eq hL]
  apply foldlM_allTxn_total (nodup_txns H)
  · exact fun p hp => hf p.2 p.1 ((mem_txns H p.1 p.2).mp hp)
  · intro p hp q hq m m' k v j j' hm hm' hk hk'
    exact hu p.2 j q.2 j' k v ⟨p.1, m, (mem_txns H p.1 p.2).mp hp, hm, hk⟩
      ⟨q.1, m', (mem_txns H q.1 q.2).mp hq, hm', hk'⟩
  · intros
    rfl

theorem mem_kUpsertsFn {idx : Positions κ ν} {R : Nat → Nat → κ → ν → Prop}
    (h : PositionsOf idx R) (k : κ) (i j : Nat) : (i, j) ∈ kUpsertsFn idx k ↔ ∃ v, R i j k v := by
  simp only [kUpsertsFn, ← h k, Dict.get2?]
  cases hk : idx.get? k with
  | none => simp
  | some vs =>
    simp only [mem_insertAll, List.not_mem_nil, false_or, Option.bind_some, Prod.exists,
      Dict.mem_entries]
    constructor
    · rintro ⟨v, i', j', hv, he⟩
      cases he
      exact ⟨v, hv⟩
    · rintro ⟨v, hv⟩
      exact ⟨v, i, j, hv, rfl⟩

end Positions

end Viper
