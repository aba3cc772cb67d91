import Viper.Summaries

/-!
# Replaying a transaction against a snapshot

`check_INT`, `ext_reads_fn` and `ext_writes_fn` each keep their own account of
the keys a transaction has touched. A transaction is replayed against a snapshot
by running its micro-operations in order: a read sees the last own write of its
key, or else the snapshot. The three accounts agree with the replay.
-/
namespace Viper

open Py

variable {κ ν : Type}

/-- Reads, writes, deletes that succeed and range queries with two bounds. -/
def Mop.Faithful : Mop κ ν → Prop
  | .r _ _ _ => True
  | .w _ _ _ => True
  | .d _ _ _ _ succ => succ = true
  | .range k1 k2 _ _ _ => k1.isSome ∧ k2.isSome
  | _ => False

instance : (mop : Mop κ ν) → Decidable mop.Faithful
  | .r _ _ _ => .isTrue trivial
  | .w _ _ _ => .isTrue trivial
  | .d _ _ _ _ succ => inferInstanceAs (Decidable (succ = true))
  | .range k1 k2 _ _ _ => inferInstanceAs (Decidable (k1.isSome ∧ k2.isSome))
  | .i _ _ _ _ _ => .isFalse id
  | .append _ _ => .isFalse id

variable [LinearOrder κ]

/-- What a read of `k` returns. -/
def seen (S : κ → Option ν) (own : Dict κ ν) (k : κ) : Option ν := (own.get? k).or (S k)

theorem seen_set (S : κ → Option ν) (own : Dict κ ν) (k x : κ) (v : ν) :
    seen S (own.set k v) x = if x = k then some v else seen S own x := by
  rw [seen, seen, Dict.get?_set]
  split <;> rfl

variable [DecidableEq ν]

/-- One micro-operation: every value it recorded is the one seen, and its write
joins the own writes. -/
def replayMop (S : κ → Option ν) (own : Dict κ ν) : Mop κ ν → Option (Dict κ ν)
  | .r k v _ => if seen S own k = some v then some own else none
  | .w k v succ => some (if succ then own.set k v else own)
  | .i k v readV _ succ =>
    if seen S own k = some readV then some (if succ then own.set k v else own) else none
  | .d k v readV _ succ =>
    if seen S own k = some readV then some (if succ then own.set k v else own) else none
  | .range _ _ rs dead _ =>
    if ∀ item ∈ rs ++ dead, seen S own item.id = some item.val then some own else none
  | .append k v => some (own.set k v)

def replay (S : κ → Option ν) (txn : List (Mop κ ν)) : Option (Dict κ ν) :=
  txn.foldlM (replayMop S) Dict.empty

section External

omit [DecidableEq ν] in
theorem mem_ignore_see (st : ReadState κ ν) (k : κ) (v : ν) : k ∈ (st.see k v).ignore := by
  rw [ReadState.see]
  split
  · assumption
  · exact List.mem_insert_self

omit [DecidableEq ν] in
/-- Inserts and deletes read before they write. -/
theorem see_of_ok {st st' : ReadState κ ν} {k : κ} {v : ν} {succ : Bool}
    (h : (do if k ∉ st.ignore then require succ ""
             .ok (st.see k v)) = Except.ok (ε := Err) st') : st' = st.see k v := by
  split at h
  · rw [bind_eq_ok] at h
    obtain ⟨_, _, he⟩ := h
    cases he
    rfl
  · cases h
    rfl

/-- External reads found once are kept: their keys are ignored from then on. -/
structure Keeps (st st' : ReadState κ ν) : Prop where
  ignored : ∀ {k v}, st'.map.get? k = some v → k ∈ st'.ignore
  kept : ∀ {k v}, st.map.get? k = some v → st'.map.get? k = some v

omit [DecidableEq ν] in
theorem Keeps.see {st st' : ReadState κ ν} (h : Keeps st st') (k : κ) (v : ν) :
    Keeps st (st'.see k v) := by
  rw [ReadState.see]
  split
  · exact h
  · rename_i hk
    constructor
    · intro x u hx
      rw [Dict.get?_set] at hx
      split at hx
      · rename_i he
        rw [he]
        exact List.mem_insert_self
      · exact List.mem_insert_of_mem (h.ignored hx)
    · intro x u hx
      have hx' := h.kept hx
      have hne : x ≠ k := fun he => hk (he ▸ h.ignored hx')
      rw [Dict.get?_set_other _ _ _ _ hne, hx']

omit [DecidableEq ν] in
theorem Keeps.ignore {st st' : ReadState κ ν} (h : Keeps st st') (k : κ) :
    Keeps st { st' with ignore := st'.ignore.insert k } :=
  ⟨fun hx => List.mem_insert_of_mem (h.ignored hx), h.kept⟩

omit [DecidableEq ν] in
theorem Keeps.records {st st' st'' : ReadState κ ν} (h : Keeps st st') {k1 k2 : Option κ}
    {rs : List (Record κ ν)}
    (hs : rs.foldlM (extReadsRecord k1 k2) st' = .ok st'') : Keeps st st'' := by
  refine foldlM_invariant (Keeps st) (fun s item s' _ hk hstep => ?_) h hs
  rw [extReadsRecord, bind_eq_ok] at hstep
  obtain ⟨_, _, he⟩ := hstep
  cases he
  exact hk.see item.id item.val

omit [DecidableEq ν] in
theorem Keeps.step {st st' st'' : ReadState κ ν} (h : Keeps st st') {mop : Mop κ ν}
    (hs : extReadsStep st' mop = .ok st'') : Keeps st st'' := by
  cases mop with
  | range k1 k2 rs dead fin =>
    rw [extReadsStep, bind_eq_ok] at hs
    obtain ⟨mid, h₁, h₂⟩ := hs
    exact (h.records h₁).records h₂
  | r k v dead =>
    cases hs
    exact h.see k v
  | i k v readV dead succ | d k v readV dead succ =>
    rw [extReadsStep] at hs
    obtain rfl := see_of_ok hs
    exact h.see k readV
  | w k v succ =>
    cases hs
    cases succ with
    | false => exact h
    | true => exact h.ignore k
  | append k v =>
    cases hs
    exact h.ignore k

omit [DecidableEq ν] in
/-- The rest of a transaction keeps the external reads found so far. -/
theorem Keeps.run {st st' : ReadState κ ν} {txn : List (Mop κ ν)} (h : Keeps st st)
    (hs : txn.foldlM extReadsStep st = .ok st') : Keeps st st' :=
  foldlM_invariant (Keeps st) (fun _ _ _ _ hk hstep => hk.step hstep) h hs

omit [DecidableEq ν] in
/-- Where only reads are ignored, every record is an external read or has a key with one. -/
theorem Keeps.reads {st st' : ReadState κ ν} (hk : Keeps st st)
    (hr : ∀ k ∈ st.ignore, ∃ v, st.map.get? k = some v)
    {k1 k2 : Option κ} {rs : List (Record κ ν)}
    (hs : rs.foldlM (extReadsRecord k1 k2) st = .ok st') :
    (∀ k ∈ st'.ignore, ∃ v, st'.map.get? k = some v) ∧
      ∀ item ∈ rs, ∃ v, st'.map.get? item.id = some v := by
  induction rs generalizing st with
  | nil =>
    cases hs
    exact ⟨hr, by simp⟩
  | cons item rs ih =>
    rw [List.foldlM_cons, bind_eq_ok] at hs
    obtain ⟨st₁, h₁, hs⟩ := hs
    rw [extReadsRecord, bind_eq_ok] at h₁
    obtain ⟨_, _, he⟩ := h₁
    cases he
    have hk₁ : Keeps (st.see item.id item.val) (st.see item.id item.val) :=
      ⟨(hk.see _ _).ignored, id⟩
    have hr₁ : ∀ k ∈ (st.see item.id item.val).ignore,
        ∃ v, (st.see item.id item.val).map.get? k = some v := by
      intro k hm
      rw [ReadState.see] at hm ⊢
      split at hm
      · rename_i hi
        rw [if_pos hi]
        exact hr k hm
      · rename_i hi
        rw [if_neg hi]
        by_cases hki : k = item.id
        · exact ⟨item.val, by rw [hki, Dict.get?_set_same]⟩
        · obtain ⟨v, hv⟩ := hr k ((List.mem_insert_iff.mp hm).resolve_left hki)
          exact ⟨v, by rw [Dict.get?_set_other _ _ _ _ hki, hv]⟩
    obtain ⟨hall, hrs⟩ := ih hk₁ hr₁ hs
    refine ⟨hall, fun x hx => ?_⟩
    rcases List.mem_cons.mp hx with rfl | hx
    · obtain ⟨v, hv⟩ := hr₁ _ (mem_ignore_see st x.id x.val)
      exact ⟨v, (hk₁.records hs).kept hv⟩
    · exact hrs x hx

omit [DecidableEq ν] in
theorem keeps_start : Keeps (⟨[], Dict.empty⟩ : ReadState κ ν) ⟨[], Dict.empty⟩ :=
  ⟨fun h => by simp at h, id⟩

omit [DecidableEq ν] in
/-- A transaction that starts with a range query externally reads the keys it returned. -/
theorem extReadsFn_range {k1 k2 : Option κ} {rs dead : List (Record κ ν)} {fin : Option Bool}
    {rest : List (Mop κ ν)}
    {reads : Dict κ ν} (h : extReadsFn (.range k1 k2 rs dead fin :: rest) = .ok reads) :
    ∀ item ∈ rs ++ dead, ∃ v, reads.get? item.id = some v := by
  rw [extReadsFn, bind_eq_ok] at h
  obtain ⟨st, hst, he⟩ := h
  cases he
  rw [List.foldlM_cons, bind_eq_ok] at hst
  obtain ⟨st₂, hrange, hrest⟩ := hst
  rw [extReadsStep, bind_eq_ok] at hrange
  obtain ⟨st₁, h₁, h₂⟩ := hrange
  have hk₁ : Keeps st₁ st₁ := ⟨(keeps_start.records h₁).ignored, id⟩
  have hk₂ : Keeps st₂ st₂ := ⟨(hk₁.records h₂).ignored, id⟩
  obtain ⟨hall₁, hrs⟩ := keeps_start.reads (by simp) h₁
  obtain ⟨_, hdead⟩ := hk₁.reads hall₁ h₂
  intro item hi
  rcases List.mem_append.mp hi with hi | hi
  · obtain ⟨v, hv⟩ := hrs item hi
    exact ⟨v, (hk₂.run hrest).kept ((hk₁.records h₂).kept hv)⟩
  · obtain ⟨v, hv⟩ := hdead item hi
    exact ⟨v, (hk₂.run hrest).kept hv⟩

end External

section Synced

variable (S : κ → Option ν)

/-- The three accounts in step: the last value of a key is the one seen, and a key
without one is neither ignored nor written. -/
structure Synced (last : Dict κ ν) (st : ReadState κ ν) (own : Dict κ ν) : Prop where
  value : ∀ {k v}, last.get? k = some v → seen S own k = some v
  fresh : ∀ {k}, last.get? k = none → k ∉ st.ignore ∧ own.get? k = none

variable {S} {last : Dict κ ν} {st : ReadState κ ν} {own : Dict κ ν}

theorem last_of_checkValidRead {k : κ} {v : ν} {n : Nat} {writes : Dict (κ × ν) Nat}
    (h : checkValidRead k last v n writes = .ok ()) : last.get? k = none ∨
    last.get? k = some v := by
  rw [checkValidRead] at h
  split at h
  · cases h
  · rename_i hany
    cases hl : last.get? k with
    | none => exact .inl rfl
    | some u => simpa [hl] using hany

/-- A valid read returns what is seen. -/
theorem Synced.seen (h : Synced S last st own) {k : κ} {v : ν} {n : Nat} {writes : Dict (κ × ν) Nat}
    (hv : checkValidRead k last v n writes = .ok ())
    (hS : ∀ u, (st.see k v).map.get? k = some u → S k = some u) : seen S own k = some v := by
  rcases last_of_checkValidRead hv with hn | hs
  · obtain ⟨hi, ho⟩ := h.fresh hn
    have hread : (st.see k v).map.get? k = some v := by
      rw [ReadState.see, if_neg hi]
      exact Dict.get?_set_same _ _ _
    rw [Viper.seen, ho, hS v hread]
    rfl
  · exact h.value hs

omit [DecidableEq ν] in
theorem Synced.read (h : Synced S last st own) {k : κ} {v : ν} (hv : Viper.seen S own k = some v) :
    Synced S (last.set k v) (st.see k v) own := by
  constructor
  · intro x u hx
    rw [Dict.get?_set] at hx
    split at hx
    · rename_i he
      rw [he, hv, hx]
    · exact h.value hx
  · intro x hx
    rw [Dict.get?_set] at hx
    split at hx
    · cases hx
    · rename_i hne
      obtain ⟨hi, ho⟩ := h.fresh hx
      refine ⟨fun hm => hi ?_, ho⟩
      rw [ReadState.see] at hm
      split at hm
      · exact hm
      · exact (List.mem_insert_iff.mp hm).resolve_left hne

omit [DecidableEq ν] in
theorem Synced.write (h : Synced S last st own) (k : κ) (v : ν) :
    Synced S (last.set k v) { st with ignore := st.ignore.insert k } (own.set k v) := by
  constructor
  · intro x u hx
    rw [seen_set]
    rw [Dict.get?_set] at hx
    split at hx
    · rename_i he
      rw [if_pos he, hx]
    · rename_i hne
      rw [if_neg hne]
      exact h.value hx
  · intro x hx
    rw [Dict.get?_set] at hx
    split at hx
    · cases hx
    · rename_i hne
      obtain ⟨hi, ho⟩ := h.fresh hx
      exact ⟨fun hm => hi
        ((List.mem_insert_iff.mp hm).resolve_left hne), by rw [Dict.get?_set_other _ _ _ _ hne, ho]⟩

/-- The records of one list, read one after the other. -/
theorem Synced.records (h : Synced S last st own) {k1 k2 : Option κ}
    {rs : List (Record κ ν)} {n : Nat}
    {writes : Dict (κ × ν) Nat} {check : Record κ ν → Except Err Unit} {last' : Dict κ ν}
    {st' : ReadState κ ν}
    (hi : rs.foldlM (fun last item => do check item; intRecord n writes last item) last = .ok last')
    (hr : rs.foldlM (extReadsRecord k1 k2) st = .ok st') (hk : Keeps st st)
    (hS : ∀ k v, st'.map.get? k = some v → S k = some v) :
    (∀ item ∈ rs, Viper.seen S own item.id = some item.val) ∧ Synced S last' st' own := by
  induction rs generalizing last st with
  | nil =>
    cases hi
    cases hr
    exact ⟨by simp, h⟩
  | cons item rs ih =>
    rw [List.foldlM_cons, bind_eq_ok] at hi hr
    obtain ⟨last₁, hi₁, hi⟩ := hi
    obtain ⟨st₁, hr₁, hr⟩ := hr
    rw [bind_eq_ok] at hi₁
    obtain ⟨_, _, hi₁⟩ := hi₁
    rw [intRecord, bind_eq_ok] at hi₁
    obtain ⟨_, hv, he⟩ := hi₁
    cases he
    rw [extReadsRecord, bind_eq_ok] at hr₁
    obtain ⟨_, _, he⟩ := hr₁
    cases he
    have hk₁ : Keeps (st.see item.id item.val) (st.see item.id item.val) :=
      ⟨(hk.see _ _).ignored, id⟩
    have hS₁ := fun k v hkv => hS k v ((hk₁.records hr).kept hkv)
    have hseen : Viper.seen S own item.id = some item.val := h.seen hv (fun u hu => hS₁ _ _ hu)
    obtain ⟨hall, hsync⟩ := ih (h.read hseen) hi hr hk₁
    exact ⟨by simpa using ⟨hseen, hall⟩, hsync⟩

/-- The two lists of a range query. -/
theorem Synced.range (h : Synced S last st own) {k1 k2 : Option κ} {rs dead : List (Record κ ν)}
    {fin : Option Bool}
    {n : Nat} {writes : Dict (κ × ν) Nat} {last' : Dict κ ν} {st' : ReadState κ ν}
    (hi : intStep writes last (.range k1 k2 rs dead fin, n) = .ok last')
    (hr : extReadsStep st (.range k1 k2 rs dead fin) = .ok st') (hk : Keeps st st)
    (hS : ∀ k v, st'.map.get? k = some v → S k = some v) :
    (∀ item ∈ rs ++ dead, Viper.seen S own item.id = some item.val) ∧ Synced S last' st' own := by
  rw [intStep, bind_eq_ok] at hi
  rw [extReadsStep, bind_eq_ok] at hr
  obtain ⟨last₁, hi₁, hi₂⟩ := hi
  obtain ⟨st₁, hr₁, hr₂⟩ := hr
  have hk₁ : Keeps st₁ st₁ := ⟨(hk.records hr₁).ignored, id⟩
  obtain ⟨hrs, h₁⟩ := h.records hi₁ hr₁ hk (fun k v hkv => hS k v ((hk₁.records hr₂).kept hkv))
  obtain ⟨hdead, h₂⟩ := h₁.records hi₂ hr₂ hk₁ hS
  refine ⟨fun item hm => ?_, h₂⟩
  rcases List.mem_append.mp hm with hm | hm
  · exact hrs item hm
  · exact hdead item hm

/-- One micro-operation keeps the accounts in step. -/
theorem Synced.step (h : Synced S last st own) {mop : Mop κ ν} (hf : mop.Faithful) {n : Nat}
    {writes : Dict (κ × ν) Nat} {last' : Dict κ ν} {st' : ReadState κ ν}
    (hi : intStep writes last (mop, n) = .ok last') (hr : extReadsStep st mop = .ok st')
    (hk : Keeps st st) (hS : ∀ k v, st'.map.get? k = some v → S k = some v) :
    ∃ own', replayMop S own mop = some own' ∧ extWritesStep own mop = .ok own' ∧
      Synced S last' st' own' := by
  cases mop with
  | r k v dead =>
    cases hr
    rw [intStep, bind_eq_ok] at hi
    obtain ⟨_, hv, he⟩ := hi
    cases he
    have hseen := h.seen hv (hS k)
    exact ⟨own, by rw [replayMop, if_pos hseen], rfl, h.read hseen⟩
  | w k v succ =>
    cases hr
    cases hi
    cases succ with
    | false => exact ⟨own, rfl, rfl, h⟩
    | true => exact ⟨own.set k v, rfl, rfl, h.write k v⟩
  | d k v readV dead succ =>
    obtain rfl : succ = true := hf
    rw [extReadsStep] at hr
    obtain rfl := see_of_ok hr
    rw [intStep, bind_eq_ok] at hi
    obtain ⟨_, _, hi⟩ := hi
    rw [bind_eq_ok] at hi
    obtain ⟨_, hv, he⟩ := hi
    cases he
    have hseen := h.seen hv (hS k)
    refine ⟨own.set k v, by rw [replayMop, if_pos hseen]; rfl, rfl, ?_⟩
    have hw := (h.read hseen).write k v
    rw [List.insert_of_mem (mem_ignore_see st k readV)] at hw
    rw [Dict.set_set] at hw
    exact hw
  | range k1 k2 rs dead fin =>
    obtain ⟨hall, h'⟩ := h.range hi hr hk hS
    exact ⟨own, by rw [replayMop, if_pos hall], rfl, h'⟩
  | i | append => exact False.elim hf

/-- A whole transaction, from any point on. -/
theorem Synced.run (h : Synced S last st own) {txn : List (Mop κ ν)}
    (hf : ∀ mop ∈ txn, mop.Faithful) {n : Nat}
    {writes : Dict (κ × ν) Nat} {last' : Dict κ ν} {st' : ReadState κ ν}
    (hi : (txn.zipIdx n).foldlM (intStep writes) last = .ok last')
    (hr : txn.foldlM extReadsStep st = .ok st')
    (hk : Keeps st st) (hS : ∀ k v, st'.map.get? k = some v → S k = some v) :
    ∃ own', txn.foldlM (replayMop S) own = some own' ∧ txn.foldlM extWritesStep own = .ok own' := by
  induction txn generalizing last st own n with
  | nil => exact ⟨own, rfl, rfl⟩
  | cons mop txn ih =>
    rw [List.zipIdx_cons, List.foldlM_cons, bind_eq_ok] at hi
    rw [List.foldlM_cons, bind_eq_ok] at hr
    obtain ⟨last₁, hi₁, hi₂⟩ := hi
    obtain ⟨st₁, hr₁, hr₂⟩ := hr
    have hk₁ : Keeps st₁ st₁ := ⟨(hk.step hr₁).ignored, id⟩
    obtain ⟨own₁, hp, hw, h₁⟩ := h.step (hf mop List.mem_cons_self) hi₁ hr₁ hk
      (fun k v hkv => hS k v ((hk₁.run hr₂).kept hkv))
    obtain ⟨own', hp', hw'⟩ := ih h₁ (fun m hm => hf m (List.mem_cons_of_mem mop hm)) hi₂ hr₂ hk₁
    exact ⟨own', by rw [List.foldlM_cons, hp]; exact hp',
      by rw [List.foldlM_cons, hw, ok_bind, hw']⟩

omit [DecidableEq ν] in
theorem synced_start (S : κ → Option ν) :
    Synced S (Dict.empty : Dict κ ν) ⟨[], Dict.empty⟩ Dict.empty :=
  ⟨fun hk => by simp at hk, fun _ => ⟨List.not_mem_nil, rfl⟩⟩

/-- With `check_INT` passed, the values it returned are the ones externally read. -/
theorem extReadsFn_range_of_checkINT {k1 k2 : Option κ} {rs dead : List (Record κ ν)}
    {fin : Option Bool}
    {rest : List (Mop κ ν)} {reads : Dict κ ν} {b : Bool}
    (h : extReadsFn (.range k1 k2 rs dead fin :: rest) = .ok reads)
    (hINT : checkINT (.range k1 k2 rs dead fin :: rest) = .ok b) :
    ∀ item ∈ rs ++ dead, reads.get? item.id = some item.val := by
  rw [extReadsFn, bind_eq_ok] at h
  obtain ⟨st, hst, he⟩ := h
  cases he
  rw [List.foldlM_cons, bind_eq_ok] at hst
  obtain ⟨st₁, hrange, hrest⟩ := hst
  rw [checkINT, List.zipIdx_cons, bind_eq_ok] at hINT
  obtain ⟨last, hlast, _⟩ := hINT
  rw [List.foldlM_cons, bind_eq_ok] at hlast
  obtain ⟨last₁, hint, _⟩ := hlast
  have hk₁ : Keeps st₁ st₁ := ⟨(keeps_start.step hrange).ignored, id⟩
  -- the external reads themselves serve as the snapshot
  have hseen := ((synced_start fun k => st.map.get? k).range hint hrange keeps_start
    (fun k v hv => (hk₁.run hrest).kept hv)).1
  intro item hi
  simpa [seen] using hseen item hi

end Synced

theorem admissible_of_faithful {txn : List (Mop κ ν)} {b : Bool} (h : checkINT txn = .ok b)
    (hf : ∀ mop ∈ txn, mop.Faithful) : ∀ mop ∈ txn, mop.Admissible := by
  intro mop hm
  have hmop := hf mop hm
  cases mop with
  | range => exact admissible_range h hm hmop.1 hmop.2
  | d => exact hmop
  | r | w => trivial
  | i | append => exact False.elim hmop

/-- The external reads and writes of a transaction that passes `check_INT` are
faithful: replayed against any snapshot with these reads, it sees every value it
recorded, and its own writes at the end are its external writes. -/
theorem replay_of_checkINT (txn : List (Mop κ ν)) (hf : ∀ mop ∈ txn, mop.Faithful)
    (h : checkINT txn = .ok true) :
    ∃ reads writes, extReadsFn txn = .ok reads ∧ extWritesFn txn = .ok writes ∧
      ∀ S : κ → Option ν, (∀ k v, reads.get? k = some v → S k = some v) →
      replay S txn = some writes := by
  have hadm := admissible_of_faithful h hf
  obtain ⟨writes, hwrites⟩ := extWritesFn_total hadm
  obtain ⟨reads, hreads⟩ := extReadsFn_total hadm
  refine ⟨reads, writes, hreads, hwrites, fun S hS => ?_⟩
  rw [extReadsFn, bind_eq_ok] at hreads
  obtain ⟨st, hst, he⟩ := hreads
  cases he
  rw [checkINT, bind_eq_ok] at h
  obtain ⟨last, hlast, _⟩ := h
  obtain ⟨own, hown, hw⟩ := (synced_start S).run hf hlast hst keeps_start hS
  rw [replay, hown]
  rw [extWritesFn, hw] at hwrites
  cases hwrites
  rfl

/-- A transaction with all kinds of micro-operations on two keys. -/
def mixedTxn : List (Mop Nat Value) :=
  [.range (some 0) (some 9) [⟨1, .int 5⟩] [⟨2, .int 7⟩] none, .w 1 (.int 8) false,
    .w 2 (.int 6) true, .d 1 (.int 9) (.int 5) false true, .r 2 (.int 6) false, .r 1 (.int 9) true]

theorem replay_of_checkINT_mixed : (∀ mop ∈ mixedTxn, mop.Faithful) ∧ checkINT mixedTxn = .ok true ∧
    ∃ reads writes, extReadsFn mixedTxn = .ok reads ∧ extWritesFn mixedTxn = .ok writes ∧
      ∀ S : Nat → Option Value, (∀ k v, reads.get? k = some v → S k = some v) →
      replay S mixedTxn = some writes :=
  ⟨by decide, by rfl, replay_of_checkINT mixedTxn (by decide) (by rfl)⟩

end Viper
