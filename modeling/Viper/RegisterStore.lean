import Viper.Lib.SnapshotStore
import Viper.Accesses
import Viper.JsonLogs
import Viper.Phantoms
import Viper.Replay

/-!
# Clients of a register store

A client reads, writes and scans registers against its snapshot and its own
writes. What it has done passes `check_INT`, its external reads are those of the
snapshot, and its external writes are what it commits. What passes `check_INT` can
be replayed as such a run.
-/
namespace Viper

open Py Parse SnapshotStore

section Clients

variable {κ : Type} [LinearOrder κ]

/-- What an operation shows of the snapshot and the own writes. A key that is not
there reads as null. -/
def Mop.Shows (S : κ → Option Value) (own : Dict κ Value) : Mop κ Value → Prop
  | .r k v _ => (seen S own k).getD NULL_VALUE = v
  | .w _ _ succ => succ = true
  | .range k1 k2 rs dead _ => ∀ k v, ⟨k, v⟩ ∈ rs ++ dead ↔
      inBetween k k1 k2 = true ∧ seen S own k = some v
  | _ => False

def ownAfter (own : Dict κ Value) : Mop κ Value → Dict κ Value
  | .w k v _ => own.set k v
  | _ => own

/-- The clients keep what they have written, and write it back when they commit. -/
def registers : Client κ Value (Mop κ Value) (Dict κ Value) where
  start := Dict.empty
  step S own mop own' := mop.Shows S own ∧ own' = ownAfter own mop
  writes own k := own.get? k

end Clients

section Transactions

variable {κ : Type} [LinearOrder κ] {S : κ → Option Value} {own own' : Dict κ Value}
  {ops : List (Mop κ Value)} {mop : Mop κ Value}

theorem extWritesStep_of_shows (h : mop.Shows S own) :
    extWritesStep own mop = .ok (ownAfter own mop) := by
  cases mop with
  | w k v succ =>
    obtain rfl : succ = true := h
    rfl
  | r | range => rfl
  | i | d | append => exact h.elim

/-- The own writes are the external ones. -/
theorem extWrites_of_runs (h : Runs registers S own ops own') :
    ops.foldlM extWritesStep own = .ok own' := by
  induction h with
  | nil => rfl
  | cons hstep _ ih =>
    obtain ⟨hshows, rfl⟩ := hstep
    rw [List.foldlM_cons, extWritesStep_of_shows hshows]
    exact ih

/-- External reads found so far show the snapshot, and own writes hide it. -/
structure Reading (S : κ → Option Value) (own : Dict κ Value) (st : ReadState κ Value) : Prop where
  shown : ∀ k v, st.map.get? k = some v → (S k).getD NULL_VALUE = v
  hidden : ∀ k v, own.get? k = some v → k ∈ st.ignore

theorem Reading.see {st : ReadState κ Value} (h : Reading S own st) {k : κ} {v : Value}
    (hv : (seen S own k).getD NULL_VALUE = v) : Reading S own (st.see k v) := by
  rw [ReadState.see]
  split
  · exact h
  · rename_i hk
    constructor
    · intro x u hx
      rw [Dict.get?_set] at hx
      split at hx
      · rename_i he
        cases hx
        rw [he, ← hv, seen]
        cases ho : own.get? k with
        | none => rfl
        | some w => exact absurd (h.hidden k w ho) hk
      · exact h.shown x u hx
    · intro x u hx
      exact List.mem_insert_of_mem (h.hidden x u hx)

theorem Reading.records {st st' : ReadState κ Value} (h : Reading S own st) {k1 k2 : Option κ}
    {rs : List (Record κ Value)}
    (hrs : ∀ item ∈ rs, seen S own item.id = some item.val)
    (hs : rs.foldlM (extReadsRecord k1 k2) st = .ok st') :
    Reading S own st' := by
  apply foldlM_invariant (Reading S own) _ h hs
  intro st item st' hi hr hstep
  obtain ⟨_, _, he⟩ := bind_eq_ok.mp hstep
  cases he
  apply hr.see
  rw [hrs item hi]
  rfl

theorem Reading.step {st st' : ReadState κ Value} (h : Reading S own st) (hshows : mop.Shows S own)
    (hs : extReadsStep st mop = .ok st') : Reading S (ownAfter own mop) st' := by
  cases mop with
  | r k v dead =>
    cases hs
    exact h.see hshows
  | w k v succ =>
    obtain rfl : succ = true := hshows
    cases hs
    constructor
    · exact h.shown
    · intro x u hx
      rw [ownAfter, Dict.get?_set] at hx
      split at hx
      · rename_i he
        exact he ▸ List.mem_insert_self
      · exact List.mem_insert_of_mem (h.hidden x u hx)
  | range k1 k2 rs dead fin =>
    obtain ⟨mid, h₁, h₂⟩ := bind_eq_ok.mp hs
    have hseen : ∀ item ∈ rs ++ dead, seen S own item.id = some item.val :=
      fun item hi => ((hshows item.id item.val).mp hi).2
    exact (h.records (fun item hi => hseen item (List.mem_append_left dead hi)) h₁).records
      (fun item hi => hseen item (List.mem_append_right rs hi)) h₂
  | i | d | append => exact hshows.elim

/-- The external reads of a run show its snapshot. -/
theorem extReads_of_runs (h : Runs registers S Dict.empty ops own') {reads : Dict κ Value}
    (hr : extReadsFn ops = .ok reads)
    {k : κ} {v : Value} (hv : reads.get? k = some v) : (S k).getD NULL_VALUE = v := by
  have hrun : ∀ {own own' ops} {st st' : ReadState κ Value}, Runs registers S own ops own' →
      Reading S own st →
      ops.foldlM extReadsStep st = .ok st' → Reading S own' st' := by
    intro own own' ops st st' h hreading hst
    induction h generalizing st with
    | nil =>
      cases hst
      exact hreading
    | cons hstep _ ih =>
      obtain ⟨hshows, rfl⟩ := hstep
      obtain ⟨st₁, h₁, h₂⟩ := bind_eq_ok.mp (List.foldlM_cons.symm.trans hst)
      exact ih (hreading.step hshows h₁) h₂
  obtain ⟨st, hst, he⟩ := bind_eq_ok.mp hr
  cases he
  have hstart : Reading S Dict.empty ⟨[], Dict.empty⟩ :=
    ⟨fun k v hkv => by simp at hkv, fun k v hkv => by simp at hkv⟩
  exact (hrun h hstart hst).shown k v hv

/-- Every operation showed the snapshot under the writes before it. -/
theorem shows_of_runs (h : Runs registers S Dict.empty ops own') {m : Nat}
    (hm : ops[m]? = some mop) :
    ∃ own, extWritesFn (ops.take m) = .ok own ∧ mop.Shows S own := by
  obtain ⟨own, _, hruns, hshows, _⟩ := h.at hm
  exact ⟨own, extWrites_of_runs hruns, hshows⟩

theorem succeeds_of_runs (h : Runs registers S Dict.empty ops own') {k : κ} {v : Value}
    {succ : Bool} (hm : .w k v succ ∈ ops) : succ = true := by
  obtain ⟨m, hm⟩ := List.getElem?_of_mem hm
  obtain ⟨_, _, hshows⟩ := shows_of_runs h hm
  exact hshows

/-- A query leaves out what neither the snapshot holds nor an earlier write of its own. -/
theorem absent_of_runs (h : Runs registers S Dict.empty ops own') {m : Nat} {k1 k2 : Option κ}
    {rs dead : List (Record κ Value)}
    {fin : Option Bool} (hm : ops[m]? = some (.range k1 k2 rs dead fin)) {k : κ}
    (hin : inBetween k k1 k2 = true) (hrs : k ∉ rs.map Record.id) (hdead : k ∉ dead.map Record.id) :
    S k = none ∧ ∀ p, p ≤ m → ∀ v succ, ops[p]? ≠ some (.w k v succ) := by
  obtain ⟨own, hown, hshows⟩ := shows_of_runs h hm
  have hseen : seen S own k = none := by
    cases hv : seen S own k with
    | none => rfl
    | some v =>
      have hmem := (hshows k v).mpr ⟨hin, hv⟩
      cases List.mem_append.mp hmem with
      | inl hmem => exact absurd (List.mem_map_of_mem hmem) hrs
      | inr hmem => exact absurd (List.mem_map_of_mem hmem) hdead
  obtain ⟨hnone, hS⟩ := Option.or_eq_none_iff.mp hseen
  refine ⟨hS, ?_⟩
  intro p hp v succ hw
  obtain rfl := succeeds_of_runs h (List.mem_of_getElem? hw)
  have hlt : p < m := by
    apply Nat.lt_of_le_of_ne hp
    intro he
    rw [he, hm] at hw
    cases hw
  have hmem : .w k v true ∈ ops.take m :=
    List.mem_of_getElem? ((List.getElem?_take_of_lt hlt).trans hw)
  obtain ⟨u, hu⟩ := (extWritesFn_key hown k).mpr ⟨_, hmem, rfl, rfl⟩
  rw [hnone] at hu
  cases hu

end Transactions

section Consistency

variable {κ : Type} [LinearOrder κ] {S : κ → Option Value} {own own' : Dict κ Value}
  {ops : List (Mop κ Value)} {last : Dict κ Value}

/-- The last value of every key is the one shown. -/
def Fits (S : κ → Option Value) (own last : Dict κ Value) : Prop :=
  ∀ k u, last.get? k = some u → (seen S own k).getD NULL_VALUE = u

theorem Fits.set (h : Fits S own last) {k : κ} {v : Value}
    (hv : (seen S own k).getD NULL_VALUE = v) :
    Fits S own (last.set k v) := by
  intro x u hx
  rw [Dict.get?_set] at hx
  split at hx
  · rename_i he
    cases hx
    exact he ▸ hv
  · exact h x u hx

theorem Fits.write (h : Fits S own last) (k : κ) (v : Value) :
    Fits S (own.set k v) (last.set k v) := by
  intro x u hx
  rw [Dict.get?_set] at hx
  rw [seen_set]
  split at hx
  · rename_i he
    cases hx
    rw [if_pos he]
    rfl
  · rename_i hne
    rw [if_neg hne]
    exact h x u hx

theorem not_conflicts_records {check : κ → Except Err Unit} {rs : List (Record κ Value)}
    {l : List (Access κ Value)} (hrs : ∀ item ∈ rs, (seen S own item.id).getD NULL_VALUE = item.val)
    (hlater : ∀ item ∈ rs, ∀ kept, .write item.id item.val true kept ∉ l)
    (hl : ∀ last, Fits S own last → ¬ Conflicts last l) (h : Fits S own last) :
    ¬ Conflicts last (recordAccesses check rs ++ l) := by
  induction rs generalizing last with
  | nil => exact hl last h
  | cons item rs ih =>
    have hitem := hrs item List.mem_cons_self
    intro hc
    obtain ⟨_, hc⟩ := hc
    cases hc with
    | inl hc =>
      obtain ⟨u, hu, hne⟩ := hc
      exact hne ((h _ u hu).symm.trans hitem)
    | inr hc =>
      cases hc with
      | inl hw =>
        obtain ⟨kept, hw⟩ := hw
        cases List.mem_append.mp hw with
        | inl hw =>
          obtain ⟨_, _, hw⟩ := List.mem_flatMap.mp hw
          simp at hw
        | inr hw => exact hlater item List.mem_cons_self kept hw
      | inr hc =>
        exact ih (fun item' hi => hrs item' (List.mem_cons_of_mem item hi))
          (fun item' hi => hlater item' (List.mem_cons_of_mem item hi)) (h.set hitem) hc

/-- What is shown is not written later. -/
theorem not_mem_compared (hnew : ∀ k v succ, .w k v succ ∈ ops → (seen S own k).getD NULL_VALUE ≠ v)
    {k : κ} {v : Value}
    (hv : (seen S own k).getD NULL_VALUE = v)
    (kept : Bool) : .write k v true kept ∉ ops.flatMap Mop.compared := by
  intro hw
  obtain ⟨mop, hm, hw⟩ := List.mem_flatMap.mp hw
  obtain rfl := write_compared.mp hw
  exact hnew k v kept hm hv

/-- The accesses of a run that writes new values, none of them twice, have no conflict. -/
theorem not_conflicts_of_runs (h : Runs registers S own ops own')
    (hnew : ∀ k v succ, .w k v succ ∈ ops → (seen S own k).getD NULL_VALUE ≠ v)
    (honce : ops.Pairwise fun a b => ∀ k v succ succ', a = .w k v succ → b ≠ .w k v succ')
    (hfits : Fits S own last) :
    ¬ Conflicts last (ops.flatMap Mop.compared) := by
  induction h generalizing last with
  | nil => exact id
  | @cons own _ _ mop ops hstep _ ih =>
    obtain ⟨hshows, rfl⟩ := hstep
    obtain ⟨hfirst, hpairs⟩ := List.pairwise_cons.mp honce
    have hrest : ∀ k v succ, .w k v succ ∈ ops → (seen S own k).getD NULL_VALUE ≠ v :=
      fun k v succ hm => hnew k v succ (List.mem_cons_of_mem mop hm)
    cases mop with
    | r k v dead =>
      intro hc
      cases hc with
      | inl hc =>
        obtain ⟨u, hu, hne⟩ := hc
        exact hne ((hfits k u hu).symm.trans hshows)
      | inr hc =>
        cases hc with
        | inl hw =>
          obtain ⟨kept, hw⟩ := hw
          exact not_mem_compared hrest hshows kept hw
        | inr hc => exact ih hrest hpairs (hfits.set hshows) hc
    | w k v succ =>
      obtain rfl : succ = true := hshows
      apply ih _ hpairs (hfits.write k v)
      intro x u succ hm
      rw [ownAfter, seen_set]
      split
      · rename_i he
        intro hu
        cases hu
        exact hfirst _ hm k v true succ rfl (he ▸ rfl)
      · exact hrest x u succ hm
    | range k1 k2 rs dead fin =>
      have hseen : ∀ item ∈ rs ++ dead, (seen S own item.id).getD NULL_VALUE = item.val := by
        intro item hi
        rw [((hshows item.id item.val).mp hi).2]
        rfl
      have hl : ∀ last, Fits S own last → ¬ Conflicts last
          (recordAccesses (assertBounds k1 k2) dead ++ ops.flatMap Mop.compared) := by
        intro last hlast
        exact not_conflicts_records (fun item hi => hseen item (List.mem_append_right rs hi))
          (fun item hi => not_mem_compared hrest (hseen item (List.mem_append_right rs hi)))
          (fun last hlast => ih hrest hpairs hlast) hlast
      rw [List.flatMap_cons, Mop.compared, List.append_assoc]
      apply not_conflicts_records
        (fun item hi => hseen item (List.mem_append_left dead hi)) _ hl hfits
      intro item hi kept hw
      cases List.mem_append.mp hw with
      | inl hw =>
        obtain ⟨_, _, hw⟩ := List.mem_flatMap.mp hw
        simp at hw
      | inr hw => exact not_mem_compared hrest (hseen item (List.mem_append_left dead hi)) kept hw
    | i | d | append => exact hshows.elim

/-- `check_INT` passes the transactions of a store. -/
theorem checkINT_of_runs (h : Runs registers S Dict.empty ops own') (hl : ∀ mop ∈ ops, mop.Logged)
    (hb : ∀ mop ∈ ops, mop.Bounded)
    (hnew : ∀ k v succ, .w k v succ ∈ ops → (S k).getD NULL_VALUE ≠ v)
    (honce : ops.Pairwise fun a b => ∀ k v succ succ', a = .w k v succ → b ≠ .w k v succ') :
    checkINT ops = .ok true := by
  apply (checkINT_or_rejects hl hb).resolve_right
  intro hr
  rw [rejects_checkINT_iff] at hr
  apply not_conflicts_of_runs h _ honce _ hr
  · intro k v succ hm
    rw [seen, Dict.get?_empty, Option.none_or]
    exact hnew k v succ hm
  · intro k u hu
    simp at hu

end Consistency

section Replays

variable {κ : Type} [LinearOrder κ] {S : κ → Option Value} {own own' : Dict κ Value}
  {ops : List (Mop κ Value)}

/-- The snapshot, with null where nothing is. -/
def filled (S : κ → Option Value) (k : κ) : Option Value := some ((S k).getD NULL_VALUE)

theorem seen_filled (S : κ → Option Value) (own : Dict κ Value) (k : κ) :
    seen (filled S) own k = some ((seen S own k).getD NULL_VALUE) := by
  rw [seen, seen, filled]
  cases own.get? k <;> rfl

theorem extWrites_of_replay (hs : ∀ mop ∈ ops, mop.Simple)
    (h : ops.foldlM (replayMop S) own = some own') :
    ops.foldlM extWritesStep own = .ok own' := by
  induction ops generalizing own with
  | nil =>
    cases h
    rfl
  | cons mop ops ih =>
    rw [List.foldlM_cons, Option.bind_eq_bind, Option.bind_eq_some_iff] at h
    obtain ⟨own₁, hmop, h⟩ := h
    have hrest := ih (fun mop' hm => hs mop' (List.mem_cons_of_mem mop hm)) h
    have hstep : extWritesStep own mop = .ok own₁ := by
      have hsimple := hs mop List.mem_cons_self
      cases mop with
      | r k v dead =>
        rw [replayMop] at hmop
        split at hmop <;> cases hmop
        rfl
      | w k v succ =>
        obtain rfl : succ = true := hsimple
        cases hmop
        rfl
      | range k1 k2 rs dead fin =>
        rw [replayMop] at hmop
        split at hmop <;> cases hmop
        rfl
      | i | d | append => exact hsimple.elim
    rw [List.foldlM_cons, hstep]
    exact hrest

/-- What can be replayed is a run, if no query leaves out what it should have shown. -/
theorem runs_of_replay (hs : ∀ mop ∈ ops, mop.Simple)
    (h : ops.foldlM (replayMop (filled S)) own = some own')
    (hscan :
      ∀ (m : Nat) (k1 k2 : Option κ) (rs dead : List (Record κ Value)) (fin : Option Bool)
        (own₁ : Dict κ Value),
      ops[m]? = some (.range k1 k2 rs dead fin) →
      (ops.take m).foldlM (replayMop (filled S)) own = some own₁ →
      (∀ item ∈ rs ++ dead, seen (filled S) own₁ item.id = some item.val) →
      (Mop.range k1 k2 rs dead fin).Shows S own₁) :
    Runs registers S own ops own' := by
  induction ops generalizing own with
  | nil =>
    cases h
    exact .nil
  | cons mop ops ih =>
    rw [List.foldlM_cons, Option.bind_eq_bind, Option.bind_eq_some_iff] at h
    obtain ⟨own₁, hmop, h⟩ := h
    have hrest : Runs registers S own₁ ops own' := by
      apply ih (fun mop' hm => hs mop' (List.mem_cons_of_mem mop hm)) h
      intro m k1 k2 rs dead fin own₂ hm hown hall
      apply hscan (m + 1) k1 k2 rs dead fin own₂ hm _ hall
      rw [List.take_succ_cons, List.foldlM_cons, hmop]
      exact hown
    have hsimple := hs mop List.mem_cons_self
    cases mop with
    | r k v dead =>
      rw [replayMop] at hmop
      split at hmop
      · rename_i hv
        cases hmop
        rw [seen_filled] at hv
        exact .cons ⟨Option.some.inj hv, rfl⟩ hrest
      · cases hmop
    | w k v succ =>
      obtain rfl : succ = true := hsimple
      cases hmop
      exact .cons ⟨rfl, rfl⟩ hrest
    | range k1 k2 rs dead fin =>
      rw [replayMop] at hmop
      split at hmop
      · rename_i hall
        cases hmop
        exact .cons ⟨hscan 0 k1 k2 rs dead fin own rfl rfl hall, rfl⟩ hrest
      · cases hmop
    | i | d | append => exact hsimple.elim

end Replays

end Viper
