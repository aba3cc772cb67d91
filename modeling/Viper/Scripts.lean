import Viper.Summaries

/-!
# The phases of the builders as scripts

Session order, the initial transaction, reads of initial values, the final state
and range queries are the same in both register builders. Each phase plays a
script; the lemmas `mem_…Script` list what the script may hold, in terms of the
history alone.
-/
namespace Viper

open Py

section Sessions

variable {κ μ : Type}

/-- Consecutive transactions of a session. -/
def Consecutive (histories : List (List (Entry μ))) (i j : Nat) : Prop :=
  ∃ txns ∈ histories, ∃ p ∈ txns.zip txns.tail, p.1.id = i ∧ p.2.id = j

def sessionScript (histories : List (List (Entry μ))) : Script :=
  histories.flatMap fun txns => (txns.zip txns.tail).map fun p => .ok (.edge ⟨p.1.id, p.2.id, .cb⟩)

theorem addSessionOrder_eq (G : ArgumentedPolyGraph κ) (histories : List (List (Entry μ))) :
    addSessionOrder G histories = play G (sessionScript histories) := by
  apply foldlM_eq_play
  intro txns _ G
  exact foldlM_eq_play_map (fun p : Entry μ × Entry μ => .edge ⟨p.1.id, p.2.id, .cb⟩)
    (fun _ _ _ => rfl) G

theorem optionally_sessionOrder_eq (strongSession : Bool) (G : ArgumentedPolyGraph κ)
    (histories : List (List (Entry μ))) : optionally strongSession (addSessionOrder · histories) G =
      play G (if strongSession then sessionScript histories else []) := by
  cases strongSession with
  | false => rfl
  | true => exact addSessionOrder_eq G histories

theorem mem_sessionScript (histories : List (List (Entry μ))) (x : Except Err Cmd) :
    x ∈ sessionScript histories ↔
      ∃ i j, Consecutive histories i j ∧ x = .ok (.edge ⟨i, j, .cb⟩) := by
  simp only [sessionScript, List.mem_flatMap, List.mem_map, Consecutive]
  constructor
  · rintro ⟨txns, ht, p, hp, rfl⟩
    exact ⟨p.1.id, p.2.id, ⟨txns, ht, p, hp, rfl, rfl⟩, rfl⟩
  · rintro ⟨i, j, ⟨txns, ht, p, hp, rfl, rfl⟩, rfl⟩
    exact ⟨txns, ht, p, hp, rfl⟩

def initialScript (n : Nat) : Script := (List.range' 1 (n - 1)).map fun i => .ok (.edge ⟨0, i, .cb⟩)

theorem addInitialOrder_eq (G : ArgumentedPolyGraph κ) :
    addInitialOrder G = play G (initialScript G.nNodes) :=
  foldlM_eq_play_map (fun i => .edge ⟨0, i, .cb⟩) (fun _ _ _ => rfl) G

theorem mem_initialScript (n : Nat) (x : Except Err Cmd) :
    x ∈ initialScript n ↔ ∃ i, 0 < i ∧ i < n ∧ x = .ok (.edge ⟨0, i, .cb⟩) := by
  simp only [initialScript, List.mem_map, List.mem_range'_1]
  constructor
  · rintro ⟨i, hi, rfl⟩
    exact ⟨i, by omega, by omega, rfl⟩
  · rintro ⟨i, hi, hn, rfl⟩
    exact ⟨i, by omega, rfl⟩

end Sessions

variable {κ : Type} [LinearOrder κ]

section InitialReads

theorem fromInitial_some {st : Dict κ Value} {k : κ} {v : Value} :
    fromInitial (some st) k v = true ↔ st.get? k = some v :=
  beq_iff_eq

theorem fromInitial_eq_false {initial : Option (Dict κ Value)} {k : κ} {v : Value} :
    fromInitial initial k v = false ↔ ∃ st, initial = some st ∧ st.get? k ≠ some v := by
  cases initial with
  | none => simp [fromInitial]
  | some st => simp [fromInitial]

variable {X : Index κ Value} {W : Nat → κ → Value → Prop} (hX : IndexOf X W)

def initialReadScript (o : SetOrder) (extWrites : Index κ Value) (k : κ)
    (readTxns : List Nat) : Script :=
  edgesScript [0] (o.iter readTxns) .wr ++
    (o.iter readTxns).flatMap fun Tj =>
      edgesScript [Tj] (o.iter (diff (kWritesFn extWrites k) [Tj])) .rw

theorem addInitialReads_eq (o : SetOrder) (extWrites : Index κ Value) (k : κ) (readTxns : List Nat)
    (G : ArgumentedPolyGraph κ) :
    addInitialReads o extWrites k readTxns G =
      play G (initialReadScript o extWrites k readTxns) := by
  rw [addInitialReads, initialReadScript, play_append, addEdges_eq_play]
  congr 1
  funext G
  exact @foldlM_eq_play _ _ _
    (fun Tj => edgesScript [Tj] (o.iter (diff (kWritesFn extWrites k) [Tj])) .rw) _
    (fun Tj _ G => addEdges_eq_play G _ _ _) G

include hX in
theorem mem_initialReadScript (o : SetOrder) (k : κ) (readTxns : List Nat) (x : Except Err Cmd) :
    x ∈ initialReadScript o X k readTxns ↔
      (∃ j ∈ readTxns, x = .ok (.edge ⟨0, j, .wr⟩)) ∨
        ∃ j ∈ readTxns, ∃ i, i ≠ j ∧ (∃ v, W i k v) ∧ x = .ok (.edge ⟨j, i, .rw⟩) := by
  simp only [initialReadScript, List.mem_append, mem_edgesScript, List.mem_flatMap,
    List.mem_singleton, SetOrder.mem_iter, exists_eq_left, mem_diff, mem_kWritesFn hX]
  refine or_congr Iff.rfl (exists_congr fun j => and_congr_right fun _ => exists_congr fun i => ?_)
  tauto

end InitialReads

section RangeQueries

/-- Upserts of a key that a query of `queryTxn` covers and does not return. -/
def omittedScript (o : SetOrder) (allUpserts : Positions κ Value) (queryTxn limit : Nat)
    (k : κ) : Script :=
  (o.iter (kUpsertsFn allUpserts k)).flatMap fun insPos =>
    if queryTxn = insPos.1 then if limit ≥ insPos.2 then [.error (.reject "")] else []
    else [.ok (.edge ⟨queryTxn, insPos.1, .rw⟩)]

theorem addOmittedKey_eq (o : SetOrder) (allUpserts : Positions κ Value) (queryTxn limit : Nat)
    (G : ArgumentedPolyGraph κ) (k : κ) :
    addOmittedKey o allUpserts queryTxn limit G k =
      play G (omittedScript o allUpserts queryTxn limit k) := by
  apply foldlM_eq_play
  intro insPos _ G
  split
  · split <;> rfl
  · rw [play_edge]

variable {H : List (Entry (Mop κ Value))}

theorem mem_omittedScript {allUpserts : Positions κ Value}
    (h : allIndex H allUpsertFn = .ok allUpserts)
    (o : SetOrder) (q limit : Nat) (k : κ) (x : Except Err Cmd) :
    x ∈ omittedScript o allUpserts q limit k ↔
      ((∃ p, UpsertAt H q p k ∧ p ≤ limit) ∧ x = .error (.reject "")) ∨
        ∃ i, i ≠ q ∧ (∃ p, UpsertAt H i p k) ∧ x = .ok (.edge ⟨q, i, .rw⟩) := by
  simp only [omittedScript, List.mem_flatMap, SetOrder.mem_iter, Prod.exists, mem_upserts h]
  constructor
  · rintro ⟨i, p, hu, hx⟩
    by_cases hq : q = i
    · subst hq
      by_cases hp : p ≤ limit
      · simp only [ge_iff_le, hp, if_true, List.mem_singleton] at hx
        exact .inl ⟨⟨p, hu, hp⟩, hx⟩
      · simp [hp] at hx
    · simp only [hq, if_false, List.mem_singleton] at hx
      exact .inr ⟨i, Ne.symm hq, ⟨p, hu⟩, hx⟩
  · rintro (⟨⟨p, hu, hp⟩, rfl⟩ | ⟨i, hi, ⟨p, hu⟩, rfl⟩)
    · exact ⟨q, p, hu, by simp [hp]⟩
    · exact ⟨i, p, hu, by simp [Ne.symm hi]⟩

/-- A query of transaction `q` at position `m` covers `k` and returns it in
neither record list. -/
def Omits (H : List (Entry (Mop κ Value))) (q m : Nat) (k : κ) : Prop :=
  ∃ k1 k2 rs dead, RangeAt H q m k1 k2 rs dead ∧ inBetween k k1 k2 = true ∧
    k ∉ rs.map Record.id ∧ k ∉ dead.map Record.id

theorem mem_otherKeys (K : List κ) (k1 k2 : Option κ) (rs dead : List (Record κ Value)) (k : κ) :
    k ∈ otherKeys K k1 k2 rs dead ↔
      k ∈ K ∧ inBetween k k1 k2 = true ∧ k ∉ rs.map Record.id ∧ k ∉ dead.map Record.id := by
  rw [otherKeys, mem_diff, mem_diff, mem_subset]
  tauto

theorem assertReturned_eq_ok {k1 k2 : Option κ} {rs dead : List (Record κ Value)} {u : Unit} :
    assertReturned k1 k2 rs dead = .ok u ↔ ∀ item ∈ rs ++ dead, inBetween item.id k1 k2 = true := by
  rw [assertReturned]
  constructor
  · intro h item hi
    have hm : item.id ∈ rs.map Record.id ∪ dead.map Record.id := by
      rw [List.mem_union_iff, List.mem_map, List.mem_map]
      exact (List.mem_append.mp hi).imp (fun h => ⟨item, h, rfl⟩) (fun h => ⟨item, h, rfl⟩)
    obtain ⟨_, _, ht⟩ := foldlM_each h _ hm
    exact require_eq_ok.mp ht
  · intro h
    obtain ⟨u', hu, _⟩ := foldlM_total (fun _ : Unit => True) (ε := Err)
      (l := rs.map Record.id ∪ dead.map Record.id)
      (f := fun _ k => require (inBetween k k1 k2) "") (s := ()) (fun _ k hk _ => by
        rw [List.mem_union_iff, List.mem_map, List.mem_map] at hk
        refine ⟨(), require_eq_ok.mpr ?_, trivial⟩
        rcases hk with ⟨item, hi, rfl⟩ | ⟨item, hi, rfl⟩
        · exact h item (List.mem_append_left _ hi)
        · exact h item (List.mem_append_right _ hi)) trivial
    exact hu

omit [LinearOrder κ] in
theorem mopAt_eq_ok {i j : Nat} {mop : Mop κ Value} {txn : List (Mop κ Value)} (ht : TxnAt H i txn)
    (hj : txn[j]? = some mop) : mopAt H i j = .ok mop := by
  obtain ⟨_, e, he, hv⟩ := ht
  simp [mopAt, he, hv, hj]

omit [LinearOrder κ] in
theorem exists_mopAt {i j : Nat} {mop : Mop κ Value} (h : mopAt H i j = .ok mop) (hi : 0 < i) :
    ∃ txn, TxnAt H i txn ∧ txn[j]? = some mop := by
  rw [mopAt] at h
  split at h
  · cases h
  · rename_i e he
    split at h
    · cases h
    · rename_i txn htxn
      split at h
      · cases h
      · rename_i mop' hj
        cases h
        exact ⟨txn, ⟨hi, e, he, htxn⟩, hj⟩

/-- One query: the assertions `pre` on its record lists, then the omitted keys. -/
def queryScript (o : SetOrder) (allUpserts : Positions κ Value) (K : List κ) (q : Nat × Nat)
    (limit : Nat)
    (pre : Option κ → Option κ → List (Record κ Value) → List (Record κ Value) → Except Err Unit) :
    Except Err (Mop κ Value) → Script
  | .ok (.range k1 k2 rs dead _) =>
    (match pre k1 k2 rs dead with
      | .ok _ => []
      | .error e => [.error e]) ++ (o.iter (otherKeys K k1 k2 rs dead)).flatMap
        (omittedScript o allUpserts q.1 limit)
  | .ok _ => [.error .valueError]
  | .error e => [.error e]

/-- What the query at a known position plays, once its assertions hold. -/
theorem mem_queryScript {allUpserts : Positions κ Value}
    (h : allIndex H allUpsertFn = .ok allUpserts)
    {K : List κ} (hK : allKeys H = .ok K) (o : SetOrder) {q m limit : Nat}
    {pre : Option κ → Option κ → List (Record κ Value) → List (Record κ Value) → Except Err Unit}
    (hpre : ∀ k1 k2 rs dead, RangeAt H q m k1 k2 rs dead → pre k1 k2 rs dead = .ok ())
    (hq : ∃ k1 k2 rs dead, RangeAt H q m k1 k2 rs dead) (x : Except Err Cmd) :
    x ∈ queryScript o allUpserts K (q, m) limit pre (mopAt H q m) ↔ ∃ k, Omits H q m k ∧
      (((∃ p, UpsertAt H q p k ∧ p ≤ limit) ∧ x = .error (.reject "")) ∨
        ∃ i, i ≠ q ∧ (∃ p, UpsertAt H i p k) ∧ x = .ok (.edge ⟨q, i, .rw⟩)) := by
  obtain ⟨k1, k2, rs, dead, txn, fin, ht, hj⟩ := hq
  have hkey : ∀ k p i, UpsertAt H i p k → k ∈ K := by
    rintro k p i ⟨txn, v, succ, ht, hj⟩
    refine (mem_allKeys hK k).mpr
      ⟨i, txn, ht, List.mem_filterMap.mpr ⟨_, List.mem_of_getElem? hj, rfl⟩⟩
  rw [mopAt_eq_ok ht hj, queryScript, hpre k1 k2 rs dead ⟨txn, fin, ht, hj⟩]
  simp only [List.nil_append, List.mem_flatMap, SetOrder.mem_iter, mem_otherKeys,
    mem_omittedScript h]
  constructor
  · rintro ⟨k, ⟨_, hk⟩, hx⟩
    exact ⟨k, ⟨k1, k2, rs, dead, ⟨txn, fin, ht, hj⟩, hk⟩, hx⟩
  · rintro ⟨k, ⟨k1', k2', rs', dead', ⟨txn', fin', ht', hj'⟩, hk⟩, hx⟩
    obtain rfl := ht.unique ht'
    rw [hj] at hj'
    cases hj'
    refine ⟨k, ⟨?_, hk⟩, hx⟩
    rcases hx with ⟨⟨p, hu, _⟩, _⟩ | ⟨i, _, ⟨p, hu⟩, _⟩
    · exact hkey k p q hu
    · exact hkey k p i hu

end RangeQueries

section FinalState

/-- One value of the final state. -/
def finalReadScript (o : SetOrder) (extWrites : Index κ Value) (Tf : Nat)
    (p : κ × Value) : Script :=
  match o.iter (getIn extWrites p.1 p.2) with
  | [] => .ok (.edge ⟨0, Tf, .wr⟩) ::
    if (TkSetFn extWrites p.1 [0, Tf]).isEmpty then []
    else [.error (.assertion "No txn can happen after Tf")]
  | [Ti] => .ok (.edge ⟨Ti, Tf, .wr⟩) ::
    (o.iter (TkSetFn extWrites p.1 [Ti, Tf])).map fun Tk => .ok (.edge ⟨Tk, Ti, .ww⟩)
  | _ => [.error (.assertion "")]

def finalStateScript (o : SetOrder) (extWrites : Index κ Value) (Tf n : Nat)
    (rsDict : Dict κ Value) : Script :=
  rsDict.entries.flatMap (finalReadScript o extWrites Tf) ++
    (List.range (n - 1)).map fun i => .ok (.edge ⟨i, Tf, .cb⟩)

/-- The record lists of the final query as dictionaries. -/
def finalDicts (fullHistory : List (Entry (Mop κ Value))) :
    Except Err (Dict κ Value × Dict κ Value) := do
  let (queryResult, deadResult) ← finalQuery fullHistory
  let queryRsDict ← convertRs2dict queryResult
  let deadRsDict ← convertRs2dict deadResult
  .ok (queryRsDict, deadRsDict)

def finalScript (o : SetOrder) (fullHistory : List (Entry (Mop κ Value)))
    (extWrites : Index κ Value) : Script :=
  match finalDicts fullHistory with
  | .error e => [.error e]
  | .ok (d₁, d₂) =>
    finalStateScript o extWrites (fullHistory.length - 1) fullHistory.length d₁ ++
      finalStateScript o extWrites (fullHistory.length - 1) fullHistory.length d₂

section Members

variable {o : SetOrder} {H : List (Entry (Mop κ Value))} {X : Index κ Value} {x : Except Err Cmd}

theorem mem_finalStateScript {Tf n : Nat} {d : Dict κ Value} : x ∈ finalStateScript o X Tf n d ↔
    (∃ k v, d.get? k = some v ∧ x ∈ finalReadScript o X Tf (k, v)) ∨
    ∃ i, i < n - 1 ∧ x = .ok (.edge ⟨i, Tf, .cb⟩) := by
  simp only [finalStateScript, List.mem_append, List.mem_flatMap, List.mem_map, List.mem_range,
    Prod.exists, Dict.mem_entries]
  exact or_congr Iff.rfl (exists_congr fun i => and_congr_right fun _ => eq_comm)

/-- The final state plays its values one by one, and all commits before Tf. -/
theorem mem_finalScript {d₁ d₂ : Dict κ Value} (hd : finalDicts H = .ok (d₁, d₂)) :
    x ∈ finalScript o H X ↔
    (∃ k v, (d₁.get? k = some v ∨ d₂.get? k = some v) ∧
      x ∈ finalReadScript o X (H.length - 1) (k, v)) ∨
      ∃ i, i < H.length - 1 ∧ x = .ok (.edge ⟨i, H.length - 1, .cb⟩) := by
  rw [finalScript, hd]
  simp only [List.mem_append, mem_finalStateScript]
  constructor
  · rintro ((⟨k, v, hv, hx⟩ | hx) | (⟨k, v, hv, hx⟩ | hx))
    · exact .inl ⟨k, v, .inl hv, hx⟩
    · exact .inr hx
    · exact .inl ⟨k, v, .inr hv, hx⟩
    · exact .inr hx
  · rintro (⟨k, v, hv | hv, hx⟩ | hx)
    · exact .inl (.inl ⟨k, v, hv, hx⟩)
    · exact .inr (.inl ⟨k, v, hv, hx⟩)
    · exact .inl (.inr hx)

/-- A value of the final state adds edges, or trips an assertion. -/
theorem kind_of_finalRead {Tf : Nat} {p : κ × Value} (hx : x ∈ finalReadScript o X Tf p) :
    (∃ e, x = .ok (.edge e)) ∨ ∃ msg, x = .error (.assertion msg) := by
  rcases hw : o.iter (getIn X p.1 p.2) with _ | ⟨Ti, _ | ⟨Tk, l⟩⟩ <;>
    simp only [finalReadScript, hw] at hx
  · cases List.mem_cons.mp hx with
    | inl hx => exact .inl ⟨_, hx⟩
    | inr hx =>
      split at hx
      · cases hx
      · exact .inr ⟨_, List.mem_singleton.mp hx⟩
  · cases List.mem_cons.mp hx with
    | inl hx => exact .inl ⟨_, hx⟩
    | inr hx =>
      obtain ⟨Tk, _, hx⟩ := List.mem_map.mp hx
      exact .inl ⟨_, hx.symm⟩
  · exact .inr ⟨_, List.mem_singleton.mp hx⟩

/-- So does the whole final state, once its query is read. -/
theorem kind_of_final (hx : x ∈ finalScript o H X) :
    (∃ e, x = .ok (.edge e)) ∨ (∃ msg, x = .error (.assertion msg)) ∨
      ∃ e, finalDicts H = .error e ∧ x = .error e := by
  cases hd : finalDicts H with
  | error e =>
    rw [finalScript, hd] at hx
    exact .inr (.inr ⟨e, rfl, List.mem_singleton.mp hx⟩)
  | ok ds =>
    obtain ⟨d₁, d₂⟩ := ds
    cases (mem_finalScript hd).mp hx with
    | inl h =>
      obtain ⟨k, v, _, hx⟩ := h
      exact (kind_of_finalRead hx).imp id .inl
    | inr h =>
      obtain ⟨i, _, hx⟩ := h
      exact .inl ⟨_, hx⟩

end Members

/-- The final state adds no constraints. -/
theorem pair_not_mem_finalScript (o : SetOrder) (H : List (Entry (Mop κ Value))) (X : Index κ Value)
    (e f : Edge) :
    .ok (.pair e f) ∉ finalScript o H X := by
  intro hm
  rcases kind_of_final hm with ⟨_, he⟩ | ⟨_, he⟩ | ⟨_, _, he⟩ <;> cases he

end FinalState

section Known

/-- The tables the builders compute from a history before they add edges. -/
structure Tables (κ : Type) where
  extWrites : Index κ Value
  extReads : Index κ Value
  initial : Option (Dict κ Value)
  upserts : Positions κ Value
  keys : List κ
  queries : List (Nat × Nat)

structure Tables.Of (t : Tables κ) (H : List (Entry (Mop κ Value))) : Prop where
  extWrites : extIndex H extWritesFn = .ok t.extWrites
  extReads : extIndex H extReadsFn = .ok t.extReads
  initial : initialState H = .ok t.initial
  upserts : allIndex H allUpsertFn = .ok t.upserts
  keys : allKeys H = .ok t.keys
  queries : getAllRangeQueries H = .ok t.queries

theorem Tables.Of.unique {t t' : Tables κ} {H : List (Entry (Mop κ Value))} (h : t.Of H)
    (h' : t'.Of H) : t = t' := by
  cases t
  cases t'
  obtain ⟨h₁, h₂, h₃, h₄, h₅, h₆⟩ := h
  obtain ⟨h₁', h₂', h₃', h₄', h₅', h₆'⟩ := h'
  simp only [Tables.mk.injEq]
  exact ⟨Except.ok.inj (h₁.symm.trans h₁'), Except.ok.inj (h₂.symm.trans h₂'),
    Except.ok.inj (h₃.symm.trans h₃'),
    Except.ok.inj (h₄.symm.trans h₄'), Except.ok.inj (h₅.symm.trans h₅'),
    Except.ok.inj (h₆.symm.trans h₆')⟩

theorem Tables.Of.loaded {t : Tables κ} {H : List (Entry (Mop κ Value))} (h : t.Of H) : Loaded H :=
  loaded_of_loop (f := extTxn extWritesFn) h.extWrites

/-- The writers of a version: none, one, or a clash. -/
theorem writers_cases {ν : Type} [DecidableEq ν] {X : Index κ ν} {W : Nat → κ → ν → Prop}
    (hX : IndexOf X W) (o : SetOrder) (k : κ) (v : ν) :
    (o.iter (getIn X k v) = [] ∧ ∀ i, ¬ W i k v) ∨
      (∃ i, o.iter (getIn X k v) = [i] ∧ W i k v) ∨
      ∃ i i' l, o.iter (getIn X k v) = i :: i' :: l ∧ i ≠ i' ∧ W i k v ∧ W i' k v := by
  have hm : ∀ i, i ∈ o.iter (getIn X k v) ↔ W i k v :=
    fun i => (SetOrder.mem_iter o _ i).trans (hX.mem i k v)
  have hn : (o.iter (getIn X k v)).Nodup := by
    rw [SetOrder.nodup_iter, getIn]
    cases hg : X.get2? k v with
    | none => exact List.nodup_nil
    | some l => exact hX.nodup hg
  rcases hw : o.iter (getIn X k v) with _ | ⟨i, _ | ⟨i', l⟩⟩
  · exact .inl ⟨rfl, fun i hi => by simpa [hw] using (hm i).mpr hi⟩
  · exact .inr (.inl ⟨i, rfl, (hm i).mp (by simp [hw])⟩)
  · refine .inr (.inr ⟨i, i', l, rfl, ?_, (hm i).mp (by simp [hw]), (hm i').mp (by simp [hw])⟩)
    rw [hw] at hn
    rintro rfl
    simp at hn

theorem writers_eq_nil {ν : Type} [DecidableEq ν] {X : Index κ ν} {W : Nat → κ → ν → Prop}
    (hX : IndexOf X W)
    (o : SetOrder) {k : κ} {v : ν} (hno : ∀ i, ¬ W i k v) : o.iter (getIn X k v) = [] := by
  rcases writers_cases hX o k v with ⟨he, _⟩ | ⟨i, _, hw⟩ | ⟨i, _, _, _, _, hw, _⟩
  · exact he
  · exact absurd hw (hno i)
  · exact absurd hw (hno i)

section FinalReads

variable {X : Index κ Value} {W : Nat → κ → Value → Prop} (hX : IndexOf X W) (o : SetOrder)
  {Tf : Nat} {k : κ} {v : Value} {x : Except Err Cmd}
include hX

/-- A version with one writer puts the other writers of its key before that one. -/
theorem mem_finalReadScript_of_writer {i : Nat} (hi : W i k v) (hU : ∀ i', W i' k v → i' = i) :
    x ∈ finalReadScript o X Tf (k, v) ↔ x = .ok (.edge ⟨i, Tf, .wr⟩) ∨
      ∃ y v', W y k v' ∧ y ≠ i ∧ y ≠ Tf ∧ x = .ok (.edge ⟨y, i, .ww⟩) := by
  rcases writers_cases hX o k v with ⟨_, hno⟩ | ⟨i', he, hi'⟩ | ⟨i', i'', _, _, hne, hi', hi''⟩
  · exact absurd hi (hno i)
  · obtain rfl := hU i' hi'
    simp only [finalReadScript, he, List.mem_cons, List.mem_map, SetOrder.mem_iter, mem_TkSetFn hX]
    refine or_congr Iff.rfl (exists_congr fun y => ?_)
    constructor
    · rintro ⟨⟨⟨v', hy⟩, hne⟩, rfl⟩
      simp only [List.not_mem_nil, or_false, not_or] at hne
      exact ⟨v', hy, hne.1, hne.2, rfl⟩
    · rintro ⟨v', hy, hyi, hyf, rfl⟩
      exact ⟨⟨⟨v', hy⟩, by simp [hyi, hyf]⟩, rfl⟩
  · exact absurd ((hU i' hi').trans (hU i'' hi'').symm) hne

/-- A version without a writer trips the assertion when its key has one. -/
theorem mem_finalReadScript_of_unwritten (hno : ∀ i, ¬ W i k v) :
    x ∈ finalReadScript o X Tf (k, v) ↔
    x = .ok (.edge ⟨0, Tf, .wr⟩) ∨ ((∃ y v', W y k v' ∧ y ≠ 0 ∧ y ≠ Tf) ∧
      x = .error (.assertion "No txn can happen after Tf")) := by
  simp only [finalReadScript, writers_eq_nil hX o hno, List.mem_cons]
  refine or_congr Iff.rfl ?_
  have hempty : (TkSetFn X k [0, Tf]).isEmpty = true ↔ ¬ ∃ y v', W y k v' ∧ y ≠ 0 ∧ y ≠ Tf := by
    rw [List.isEmpty_iff, List.eq_nil_iff_forall_not_mem, not_exists]
    refine forall_congr' fun y => not_congr ?_
    rw [mem_TkSetFn hX]
    constructor
    · rintro ⟨⟨v', hy⟩, hne⟩
      simp only [List.mem_cons, List.not_mem_nil, or_false, not_or] at hne
      exact ⟨v', hy, hne.1, hne.2⟩
    · rintro ⟨v', hy, hy0, hyf⟩
      exact ⟨⟨v', hy⟩, by simp [hy0, hyf]⟩
  split
  · rename_i he
    exact iff_of_false (by simp) (fun hx => hempty.mp he hx.1)
  · rename_i he
    rw [List.mem_singleton]
    exact (and_iff_right (not_not.mp (fun hno => he (hempty.mpr hno)))).symm

end FinalReads

variable [ToString κ]

/-- One value of a key and its readers, without any constraint. -/
def knownReadScript (o : SetOrder) (X : Index κ Value) (initial : Option (Dict κ Value)) (k : κ)
    (p : Value × List Nat) : Script :=
  match o.iter (getIn X k p.1) with
  | [] =>
    if fromInitial initial k p.1 then initialReadScript o X k p.2
    else if isNull p.1 then []
    else [.error (.reject s!"dirty read {k}: {p.1}")]
  | [Ti] => edgesScript [Ti] (o.iter p.2) .wr
  | _ =>
    [.error (.assertion "There shouldn't be two txns writing the same value for the same key!")]

def knownReadsScript (o : SetOrder) (t : Tables κ) : Script :=
  t.extReads.entries.flatMap fun p =>
    p.2.entries.flatMap (knownReadScript o t.extWrites t.initial p.1)

/-- The range queries of a builder that allows own upserts after `limit`. -/
def queriesScript (o : SetOrder) (H : List (Entry (Mop κ Value))) (t : Tables κ)
    (limit : Nat × Nat → Nat)
    (pre : Option κ → Option κ → List (Record κ Value) → List (Record κ Value) → Except Err Unit) :
    Script :=
  (o.iter t.queries).flatMap fun q =>
    queryScript o t.upserts t.keys q (limit q) pre (mopAt H q.1 q.2)

/-- What a builder does about known facts, in terms of the history: the
exceptions it raises and the edges it adds. `fin` is the script of the final
state. -/
inductive KnownStep (H : List (Entry (Mop κ Value))) (histories : List (List (Entry (Mop κ Value))))
    (strongSession : Bool) (initial : Option (Dict κ Value)) (limit : Nat × Nat → Nat)
    (fin : Script) :
    Except Err Cmd → Prop
  | session {i j} : strongSession = true → Consecutive histories i j →
    KnownStep H histories strongSession initial limit fin (.ok (.edge ⟨i, j, .cb⟩))
  | first {i} : 0 < i → i < H.length →
    KnownStep H histories strongSession initial limit fin (.ok (.edge ⟨0, i, .cb⟩))
  | read {i j k v} : Has extWritesFn H i k v → Has extReadsFn H j k v →
    KnownStep H histories strongSession initial limit fin (.ok (.edge ⟨i, j, .wr⟩))
  | initialRead {j k v} : Has extReadsFn H j k v → (∀ i, ¬ Has extWritesFn H i k v) →
    fromInitial initial k v = true →
    KnownStep H histories strongSession initial limit fin (.ok (.edge ⟨0, j, .wr⟩))
  | initialOther {j x k v v'} : Has extReadsFn H j k v → (∀ i, ¬ Has extWritesFn H i k v) →
    fromInitial initial k v = true → Has extWritesFn H x k v' → x ≠ j →
    KnownStep H histories strongSession initial limit fin (.ok (.edge ⟨j, x, .rw⟩))
  | dirtyRead {j k v} : Has extReadsFn H j k v → (∀ i, ¬ Has extWritesFn H i k v) →
    fromInitial initial k v = false → isNull v = false →
    KnownStep H histories strongSession initial limit fin (.error (.reject s!"dirty read {k}: {v}"))
  | final {x} : x ∈ fin → KnownStep H histories strongSession initial limit fin x
  | omitted {q m i p k} : Omits H q m k → UpsertAt H i p k → i ≠ q →
    KnownStep H histories strongSession initial limit fin (.ok (.edge ⟨q, i, .rw⟩))
  | ownUpsert {q m p k} : Omits H q m k → UpsertAt H q p k → p ≤ limit (q, m) →
    KnownStep H histories strongSession initial limit fin (.error (.reject ""))

variable {H : List (Entry (Mop κ Value))} {histories : List (List (Entry (Mop κ Value)))}
  {strongSession : Bool} {t : Tables κ} {limit : Nat × Nat → Nat} {fin : Script}
  {pre : Option κ → Option κ → List (Record κ Value) → List (Record κ Value) → Except Err Unit}

omit [ToString κ] in
theorem mem_readIndex {R : Index κ Value} (hR : extIndex H extReadsFn = .ok R) (j : Nat) (k : κ)
    (v : Value) : (∃ l, R.get2? k v = some l ∧ j ∈ l) ↔ Has extReadsFn H j k v := by
  rw [← (extIndex_spec hR).mem j k v, getIn]
  cases R.get2? k v <;> simp

omit [ToString κ] in
theorem mem_readers (ht : t.Of H) (j : Nat) (k : κ) (v : Value) :
    (∃ l, t.extReads.get2? k v = some l ∧ j ∈ l) ↔ Has extReadsFn H j k v :=
  mem_readIndex ht.extReads j k v

theorem mem_knownReadsScript (o : SetOrder) (x : Except Err Cmd) : x ∈ knownReadsScript o t ↔
    ∃ k v l, t.extReads.get2? k v = some l ∧
    x ∈ knownReadScript o t.extWrites t.initial k (v, l) := by
  simp only [knownReadsScript, List.mem_flatMap, Prod.exists, Dict.get2?_eq_some]
  constructor
  · rintro ⟨k, e, he, v, l, hl, hx⟩
    exact ⟨k, v, l, ⟨e, he, hl⟩, hx⟩
  · rintro ⟨k, v, l, ⟨e, he, hl⟩, hx⟩
    exact ⟨k, e, he, v, l, hl, hx⟩

theorem mem_knownReadsScript_of (ht : t.Of H) {o : SetOrder} {j : Nat} {k : κ} {v : Value}
    (hr : Has extReadsFn H j k v)
    {x : Except Err Cmd} (h : ∀ l, j ∈ l → x ∈ knownReadScript o t.extWrites t.initial k (v, l)) :
    x ∈ knownReadsScript o t := by
  obtain ⟨l, hl, hj⟩ := (mem_readers ht j k v).mpr hr
  exact (mem_knownReadsScript o x).mpr ⟨k, v, l, hl, h l hj⟩

omit [ToString κ] in
/-- A key that a query leaves out is checked against every upsert of it. -/
theorem mem_queriesScript (ht : t.Of H) (o : SetOrder)
    (hpre : ∀ q m k1 k2 rs dead, RangeAt H q m k1 k2 rs dead → pre k1 k2 rs dead = .ok ())
    (x : Except Err Cmd) :
    x ∈ queriesScript o H t limit pre ↔ ∃ q m k, Omits H q m k ∧
      (((∃ p, UpsertAt H q p k ∧ p ≤ limit (q, m)) ∧ x = .error (.reject "")) ∨
        ∃ i, i ≠ q ∧ (∃ p, UpsertAt H i p k) ∧ x = .ok (.edge ⟨q, i, .rw⟩)) := by
  have hquery : ∀ q, q ∈ t.queries →
      ∀ x, x ∈ queryScript o t.upserts t.keys q (limit q) pre (mopAt H q.1 q.2) ↔
      ∃ k, Omits H q.1 q.2 k ∧
      (((∃ p, UpsertAt H q.1 p k ∧ p ≤ limit q) ∧ x = .error (.reject "")) ∨
        ∃ i, i ≠ q.1 ∧ (∃ p, UpsertAt H i p k) ∧ x = .ok (.edge ⟨q.1, i, .rw⟩)) := fun q hq =>
    mem_queryScript ht.upserts ht.keys o (hpre q.1 q.2) ((mem_queries ht.queries q).mp hq)
  simp only [queriesScript, List.mem_flatMap, SetOrder.mem_iter]
  constructor
  · rintro ⟨⟨q, m⟩, hq, hx⟩
    obtain ⟨k, hom, hx⟩ := (hquery (q, m) hq x).mp hx
    exact ⟨q, m, k, hom, hx⟩
  · rintro ⟨q, m, k, hom, hx⟩
    have hq : (q, m) ∈ t.queries := by
      obtain ⟨k1, k2, rs, dead, hr, _⟩ := hom
      exact (mem_queries ht.queries (q, m)).mpr ⟨k1, k2, rs, dead, hr⟩
    exact ⟨(q, m), hq, (hquery (q, m) hq x).mpr ⟨k, hom, hx⟩⟩

section Known

variable (ht : t.Of H) (o : SetOrder)
  (hU : ∀ i i' j k v, Has extReadsFn H j k v → Has extWritesFn H i k v →
    Has extWritesFn H i' k v → i = i')
include ht hU

/-- The writers that are found for a version decide what its readers give. -/
theorem KnownStep.of_knownReads {x : Except Err Cmd} (hx : x ∈ knownReadsScript o t) :
    KnownStep H histories strongSession t.initial limit fin x := by
  have hX := extIndex_spec ht.extWrites
  obtain ⟨k, v, l, hl, hx⟩ := (mem_knownReadsScript o x).mp hx
  have hread : ∀ j ∈ l, Has extReadsFn H j k v := fun j hj => (mem_readers ht j k v).mp ⟨l, hl, hj⟩
  obtain ⟨j₀, hj₀⟩ := List.exists_mem_of_ne_nil l ((extIndex_spec ht.extReads).nonempty hl)
  rcases writers_cases hX o k v with ⟨he, hno⟩ | ⟨i, he, hw⟩ | ⟨i, i', _, _, hne, hw, hw'⟩
  · simp only [knownReadScript, he] at hx
    split at hx
    · rename_i hfrom
      rcases (mem_initialReadScript hX o k l x).mp hx
        with ⟨j, hj, rfl⟩ | ⟨j, hj, i, hne, ⟨v', hw⟩, rfl⟩
      · exact .initialRead (hread j hj) hno hfrom
      · exact .initialOther (hread j hj) hno hfrom hw hne
    · rename_i hfrom
      split at hx
      · cases hx
      · rename_i hnull
        rw [List.mem_singleton.mp hx]
        exact .dirtyRead (hread j₀ hj₀) hno (by simpa using hfrom) (by simpa using hnull)
  · simp only [knownReadScript, he, mem_edgesScript, List.mem_singleton, exists_eq_left,
      SetOrder.mem_iter] at hx
    obtain ⟨j, hj, rfl⟩ := hx
    exact .read hw (hread j hj)
  · exact absurd (hU i i' j₀ k v (hread j₀ hj₀) hw hw') hne

/-- The known part of a builder, as far as its assertions hold. -/
theorem mem_known
    (hpre : ∀ q m k1 k2 rs dead, RangeAt H q m k1 k2 rs dead →
      pre k1 k2 rs dead = .ok ()) (x : Except Err Cmd) :
    x ∈ (if strongSession then sessionScript histories else []) ∨ x ∈ initialScript H.length ∨
        x ∈ knownReadsScript o t ∨ x ∈ fin ∨ x ∈ queriesScript o H t limit pre ↔
      KnownStep H histories strongSession t.initial limit fin x := by
  have hX := extIndex_spec ht.extWrites
  rw [mem_queriesScript ht o hpre]
  constructor
  · rintro (hx | hx | hx | hx | ⟨q, m, k, hom, ⟨⟨p, hu, hp⟩, rfl⟩ | ⟨i, hi, ⟨p, hu⟩, rfl⟩⟩)
    · cases strongSession with
      | false => simp at hx
      | true =>
        obtain ⟨i, j, hc, rfl⟩ := (mem_sessionScript histories x).mp hx
        exact .session rfl hc
    · obtain ⟨i, hi, hn, rfl⟩ := (mem_initialScript H.length x).mp hx
      exact .first hi hn
    · exact .of_knownReads ht o hU hx
    · exact .final hx
    · exact .ownUpsert hom hu hp
    · exact .omitted hom hu hi
  · intro hx
    cases hx with
    | session hs hc =>
      subst hs
      exact .inl ((mem_sessionScript histories _).mpr ⟨_, _, hc, rfl⟩)
    | first hi hn => exact .inr (.inl ((mem_initialScript H.length _).mpr ⟨_, hi, hn, rfl⟩))
    | @read i j k v hw hr =>
      refine .inr (.inr (.inl (mem_knownReadsScript_of ht hr fun l hj => ?_)))
      rcases writers_cases hX o k v with ⟨_, hno⟩ | ⟨i', he, hw'⟩ | ⟨i', i'', _, _, hne, hw', hw''⟩
      · exact absurd hw (hno i)
      · obtain rfl := hU i i' j k v hr hw hw'
        simp [knownReadScript, he, hj]
      · exact absurd (hU i' i'' j k v hr hw' hw'') hne
    | @initialRead j k v hr hno hf =>
      refine .inr (.inr (.inl (mem_knownReadsScript_of ht hr fun l hj => ?_)))
      simp only [knownReadScript, writers_eq_nil hX o hno, hf, if_true]
      exact (mem_initialReadScript hX o k l _).mpr (.inl ⟨j, hj, rfl⟩)
    | @initialOther j x k v v' hr hno hf hw hne =>
      refine .inr (.inr (.inl (mem_knownReadsScript_of ht hr fun l hj => ?_)))
      simp only [knownReadScript, writers_eq_nil hX o hno, hf, if_true]
      exact (mem_initialReadScript hX o k l _).mpr (.inr ⟨j, hj, x, hne, ⟨v', hw⟩, rfl⟩)
    | @dirtyRead j k v hr hno hf hn =>
      refine .inr (.inr (.inl (mem_knownReadsScript_of ht hr fun l hj => ?_)))
      simp [knownReadScript, writers_eq_nil hX o hno, hf, hn]
    | final hx => exact .inr (.inr (.inr (.inl hx)))
    | omitted hom hu hi =>
      exact .inr (.inr (.inr (.inr ⟨_, _, _, hom, .inr ⟨_, hi, ⟨_, hu⟩, rfl⟩⟩)))
    | ownUpsert hom hu hp => exact .inr (.inr (.inr (.inr ⟨_, _, _, hom, .inl ⟨⟨_, hu, hp⟩, rfl⟩⟩)))

end Known

theorem KnownStep.not_pair {initial : Option (Dict κ Value)} (hfin : ∀ e f, .ok (.pair e f) ∉ fin)
    {e f : Edge} :
    ¬ KnownStep H histories strongSession initial limit fin (.ok (.pair e f)) := by
  intro h
  cases h with
  | final hx => exact hfin e f hx

/-- Which edges are added does not depend on the limit for own upserts. -/
theorem KnownStep.ok_limit {initial : Option (Dict κ Value)} {limit' : Nat × Nat → Nat} {c : Cmd}
    (h : KnownStep H histories strongSession initial limit fin (.ok c)) :
    KnownStep H histories strongSession initial limit' fin (.ok c) := by
  cases h with
  | session hs hc => exact .session hs hc
  | first hi hn => exact .first hi hn
  | read hw hr => exact .read hw hr
  | initialRead hr hno hf => exact .initialRead hr hno hf
  | initialOther hr hno hf hw hne => exact .initialOther hr hno hf hw hne
  | final hx => exact .final hx
  | omitted hom hu hne => exact .omitted hom hu hne

/-- A builder that does not raise has met one writer for every version read. -/
theorem unique_of_known (hW : extIndex H extWritesFn = .ok t.extWrites)
    (hR : extIndex H extReadsFn = .ok t.extReads) {o : SetOrder}
    (h : ∀ x ∈ knownReadsScript o t, ∃ c, x = .ok c) (i i' j : Nat) (k : κ) (v : Value)
    (hr : Has extReadsFn H j k v) (hw : Has extWritesFn H i k v)
    (hw' : Has extWritesFn H i' k v) : i = i' := by
  have hX := extIndex_spec hW
  have hm : ∀ i, Has extWritesFn H i k v → i ∈ o.iter (getIn t.extWrites k v) :=
    fun i hi => (SetOrder.mem_iter o _ i).mpr ((hX.mem i k v).mpr hi)
  obtain ⟨l, hl, _⟩ := (mem_readIndex hR j k v).mpr hr
  rcases writers_cases hX o k v with ⟨_, hno⟩ | ⟨y, he, _⟩ | ⟨y, y', l', he, _⟩
  · exact absurd hw (hno i)
  · have h₁ := hm i hw
    have h₂ := hm i' hw'
    rw [he, List.mem_singleton] at h₁ h₂
    exact h₁.trans h₂.symm
  · obtain ⟨c, hc⟩ :=
      h (.error (.assertion "There shouldn't be two txns writing the same value for the same key!"))
      ((mem_knownReadsScript o _).mpr ⟨k, v, l, hl, by simp [knownReadScript, he]⟩)
    cases hc

omit [ToString κ] in
/-- A builder that does not raise has passed the assertions on every query. -/
theorem pre_of_queries (ht : t.Of H) {o : SetOrder}
    (h : ∀ x ∈ queriesScript o H t limit pre, ∃ c, x = .ok c)
    (q m : Nat) (k1 k2 : Option κ) (rs dead : List (Record κ Value))
    (hr : RangeAt H q m k1 k2 rs dead) :
    pre k1 k2 rs dead = .ok () := by
  have hq := (mem_queries ht.queries (q, m)).mpr ⟨k1, k2, rs, dead, hr⟩
  obtain ⟨txn, fin, htx, hj⟩ := hr
  cases hp : pre k1 k2 rs dead with
  | ok u => rfl
  | error e =>
    obtain ⟨c, hc⟩ :=
      h (.error e) (List.mem_flatMap.mpr ⟨(q, m), (SetOrder.mem_iter o _ _).mpr hq, by
      rw [mopAt_eq_ok htx hj, queryScript, hp]
      exact List.mem_append_left _ (List.mem_singleton.mpr rfl)⟩)
    cases hc

end Known

end Viper
