import Viper.AdyaSIChain
import Viper.ChainOrder

/-!
# What the chain builder builds

The known part of the chain builder plays the script of the plain one without
its pairs. On the side it collects the readers of every version and the
read-modify-writes; the latter are rejected when two of them follow one version.
-/
namespace Viper

open Py

namespace AdyaSIChain

variable {κ : Type} [LinearOrder κ] [ToString κ]

section Reads

variable (o : SetOrder) (X : Index κ Value) (initial : Option (Dict κ Value))

/-- The readers recorded for one value of a key. -/
def readersStep (k : κ) (rf : ReadFrom κ) (p : Value × List Nat) : ReadFrom κ :=
  match o.iter (getIn X k p.1) with
  | [] => if fromInitial initial k p.1 then addReaders o k 0 p.2 rf else rf
  | [Ti] => addReaders o k Ti p.2 rf
  | _ => rf

theorem addRead_eq (k : κ) (G : ArgumentedPolyGraph κ) (rf : ReadFrom κ) (p : Value × List Nat) :
    addRead o X initial k (G, rf) p =
      (play G (knownReadScript o X initial k p)).map
        (fun G => (G, readersStep o X initial k rf p)) := by
  rcases hw : o.iter (getIn X k p.1) with _ | ⟨Ti, _ | ⟨Tk, l⟩⟩ <;>
    simp only [addRead, knownReadScript, readersStep, hw]
  · by_cases hf : fromInitial initial k p.1 = true
    · simp only [hf, if_true, addInitialReads_eq]
      cases play G (initialReadScript o X k p.2) <;> rfl
    · by_cases hn : isNull p.1 = true
      · simp only [hf, hn, if_true]
        rfl
      · simp only [hf, hn]
        rfl
  · rw [addEdges_eq_play]
    cases play G (edgesScript [Ti] (o.iter p.2) .wr) <;> rfl
  · rfl

/-- The readers of all versions. -/
def readers (R : Index κ Value) : ReadFrom κ :=
  R.entries.foldl (fun rf p => p.2.entries.foldl (readersStep o X initial p.1) rf) Dict.empty

theorem addReads_eq (t : Tables κ) (G : ArgumentedPolyGraph κ) :
    addReads o t.extWrites t.extReads t.initial (G, Dict.empty) =
      (play G (knownReadsScript o t)).map
        (fun G => (G, readers o t.extWrites t.initial t.extReads)) := by
  rw [addReads, readers, knownReadsScript]
  refine foldlM_eq_play_with
    (fun rf (p : κ × Dict Value (List Nat)) =>
      p.2.entries.foldl (readersStep o t.extWrites t.initial p.1) rf)
    (fun p _ G rf => ?_) G Dict.empty
  exact foldlM_eq_play_with _ (fun q _ G rf => addRead_eq o t.extWrites t.initial p.1 G rf q) G rf

variable {o} {H : List (Entry (Mop κ Value))} {t : Tables κ}

section Recorded

variable (ht : t.Of H)
  (hU : ∀ i i' j k v, Has extReadsFn H j k v → Has extWritesFn H i k v →
    Has extWritesFn H i' k v → i = i')
include ht hU

omit [ToString κ] in
/-- The readers of one value are recorded with its writer. -/
theorem mem_readersStep {k' : κ} {v : Value} {l : List Nat} (hl : ∀ r ∈ l, Has extReadsFn H r k' v)
    (rf : ReadFrom κ)
    (k : κ) (i j : Nat) : j ∈ (readersStep o t.extWrites t.initial k' rf (v, l)).getD (k, i) [] ↔
    j ∈ rf.getD (k, i) [] ∨
      (k = k' ∧ j ∈ l ∧ (Has extWritesFn H i k' v ∨
        (i = 0 ∧ (∀ x, ¬ Has extWritesFn H x k' v) ∧ fromInitial t.initial k' v = true))) := by
  rcases writers_cases (extIndex_spec ht.extWrites) o k' v
    with ⟨he, hno⟩ | ⟨w, he, hw⟩ | ⟨w, w', l', he, hne, hw, hw'⟩
  · simp only [readersStep, he, hno, false_or, not_false_eq_true, implies_true, true_and]
    split
    · rename_i hf
      rw [mem_addReaders]
      simp only [hf, and_true]
      tauto
    · rename_i hf
      simp [hf]
  · simp only [readersStep, he, mem_addReaders]
    have hex : ¬ ∀ x, ¬ Has extWritesFn H x k' v := fun h => h w hw
    simp only [hex, false_and, and_false, or_false]
    refine or_congr Iff.rfl ⟨?_, ?_⟩
    · rintro ⟨hk, rfl, hj⟩
      exact ⟨hk, hj, hw⟩
    · rintro ⟨hk, hj, hi⟩
      exact ⟨hk, hU i w j k' v (hl j hj) hi hw, hj⟩
  · simp only [readersStep, he]
    refine ⟨Or.inl, ?_⟩
    rintro (h | ⟨_, hj, _⟩)
    · exact h
    · exact absurd (hU w w' j k' v (hl j hj) hw hw') hne

omit [ToString κ] in
/-- Who is recorded as a reader of whose version. -/
theorem mem_readers_iff (k : κ) (i j : Nat) :
    j ∈ (readers o t.extWrites t.initial t.extReads).getD (k, i) [] ↔
    ∃ v, Has extReadsFn H j k v ∧ (Has extWritesFn H i k v ∨
      (i = 0 ∧ (∀ x, ¬ Has extWritesFn H x k v) ∧ fromInitial t.initial k v = true)) := by
  have hmem : ∀ k' v l, t.extReads.get2? k' v = some l → ∀ r ∈ l, Has extReadsFn H r k' v :=
    fun k' v l hl r hr => (mem_readers ht r k' v).mp ⟨l, hl, hr⟩
  have hkey : ∀ p ∈ t.extReads.entries, ∀ rf : ReadFrom κ,
      (j ∈ (p.2.entries.foldl (readersStep o t.extWrites t.initial p.1) rf).getD (k, i) [] ↔
        j ∈ rf.getD (k, i) [] ∨
        ∃ q ∈ p.2.entries, k = p.1 ∧ j ∈ q.2 ∧ (Has extWritesFn H i p.1 q.1 ∨
          (i = 0 ∧ (∀ x, ¬ Has extWritesFn H x p.1 q.1) ∧
            fromInitial t.initial p.1 q.1 = true))) := by
    intro p hp rf
    refine foldl_iff (fun rf : ReadFrom κ => j ∈ rf.getD (k, i) []) _ (fun rf q hq => ?_) rf
    exact mem_readersStep ht hU (hmem p.1 q.1 q.2 (Dict.get2?_eq_some.mpr ⟨p.2, hp, hq⟩)) rf k i j
  rw [readers,
    foldl_iff (fun rf : ReadFrom κ => j ∈ rf.getD (k, i) []) _ (fun rf p hp => hkey p hp rf)]
  simp only [Dict.getD, Dict.get?_empty, Option.getD_none, List.not_mem_nil, false_or, Prod.exists]
  constructor
  · rintro ⟨k', vs, hp, v, l, hq, rfl, hj, hw⟩
    exact ⟨v, hmem k v l (Dict.get2?_eq_some.mpr ⟨vs, hp, hq⟩) j hj, hw⟩
  · rintro ⟨v, hr, hw⟩
    obtain ⟨l, hl, hj⟩ := (mem_readers ht j k v).mpr hr
    obtain ⟨vs, hp, hq⟩ := Dict.get2?_eq_some.mp hl
    exact ⟨k, vs, hp, v, l, hq, rfl, hj, hw⟩

end Recorded

end Reads

section Wwpairs

/-- `j` reads the version that `i` wrote of `k`, and writes the next one. -/
def Rmw (H : List (Entry (Mop κ Value))) (k : κ) (i j : Nat) : Prop :=
  ∃ v, Has extWritesFn H i k v ∧ Has extReadsFn H j k v ∧ ∃ v', Has extWritesFn H j k v'

def addSuccessor (wwpairs : Wwpairs κ) (p : (κ × Nat) × Nat) : Except Err (Wwpairs κ) :=
  if (wwpairs.get? p.1).isSome then .error (.reject "versions diverge")
  else .ok (wwpairs.set p.1 p.2)

omit [ToString κ] in
/-- Successors are stored unless a version gets two. -/
theorem addSuccessors_spec (l : List ((κ × Nat) × Nat)) (ww : Wwpairs κ) :
    (∃ ww', l.foldlM addSuccessor ww = .ok ww' ∧ ∀ x y, ww'.get? x = some y ↔
      ww.get? x = some y ∨ (x, y) ∈ l) ∨
      (l.foldlM addSuccessor ww = .error (.reject "versions diverge") ∧
        ((∃ x y, (ww.get? x).isSome ∧ (x, y) ∈ l) ∨ ¬ (l.map Prod.fst).Nodup)) := by
  induction l generalizing ww with
  | nil => exact .inl ⟨ww, rfl, by simp⟩
  | cons p l ih =>
    rw [List.foldlM_cons, addSuccessor]
    by_cases hp : (ww.get? p.1).isSome = true
    · rw [if_pos hp]
      exact .inr ⟨rfl, .inl ⟨p.1, p.2, hp, List.mem_cons_self⟩⟩
    · rw [if_neg hp, ok_bind]
      have hnone : ww.get? p.1 = none := by simpa using hp
      rcases ih (ww.set p.1 p.2) with ⟨ww', h, hm⟩ | ⟨h, hbad⟩
      · refine .inl ⟨ww', h, fun x y => ?_⟩
        rw [hm, Dict.get?_set]
        by_cases hx : x = p.1
        · subst hx
          simp [hnone, Prod.ext_iff, eq_comm]
        · simp [hx, Prod.ext_iff]
      · refine .inr ⟨h, ?_⟩
        rcases hbad with ⟨x, y, hs, hxy⟩ | hbad
        · rw [Dict.get?_set] at hs
          by_cases hx : x = p.1
          · right
            rw [List.map_cons, List.nodup_cons]
            exact fun h => h.1 (List.mem_map.mpr ⟨(x, y), hxy, hx⟩)
          · rw [if_neg hx] at hs
            exact .inl ⟨x, y, hs, List.mem_cons_of_mem _ hxy⟩
        · right
          rw [List.map_cons, List.nodup_cons]
          exact fun h => hbad h.2

/-- The pairs that the loop over all reads stores. -/
def successorOf (k : κ) (kWrites writeTxns : List Nat) (readTxn : Nat) : List ((κ × Nat) × Nat) :=
  if readTxn ∈ kWrites then
    match writeTxns with
    | [] => []
    | Ti :: _ => [((k, Ti), readTxn)]
  else []

def successors (o : SetOrder) (X R : Index κ Value) : List ((κ × Nat) × Nat) :=
  R.entries.flatMap fun p => p.2.entries.flatMap fun q =>
    (o.iter q.2).flatMap (successorOf p.1 (kWritesFn X p.1) (o.iter (getIn X p.1 q.1)))

variable {o : SetOrder} {H : List (Entry (Mop κ Value))} {X R : Index κ Value}
  (hW : extIndex H extWritesFn = .ok X) (hR : extIndex H extReadsFn = .ok R)
  (hU : ∀ i i' j k v, Has extReadsFn H j k v → Has extWritesFn H i k v →
    Has extWritesFn H i' k v → i = i')
include hW hR hU

omit [ToString κ] in
/-- Readers of one version of a key, in the order of the loops. -/
theorem mem_successorOf {k : κ} {v : Value} {l : List Nat} (hl : R.get2? k v = some l)
    {r : Nat} (hr : r ∈ l)
    (p : (κ × Nat) × Nat) : p ∈ successorOf k (kWritesFn X k) (o.iter (getIn X k v)) r ↔
      ∃ i, p = ((k, i), r) ∧ Has extWritesFn H i k v ∧ ∃ v', Has extWritesFn H r k v' := by
  have hX := extIndex_spec hW
  have hread := (mem_readIndex hR r k v).mp ⟨l, hl, hr⟩
  have hk := mem_kWritesFn hX k r
  rw [successorOf.eq_def]
  by_cases hw : ∃ v', Has extWritesFn H r k v'
  · rw [if_pos (hk.mpr hw)]
    rcases writers_cases hX o k v with ⟨he, hno⟩ | ⟨i, he, hi⟩ | ⟨i, i', l', he, hne, hi, hi'⟩
    · simp [he, hno]
    · simp only [he, List.mem_singleton, hw, and_true]
      refine ⟨fun h => ⟨i, h, hi⟩, ?_⟩
      rintro ⟨i', h, hi'⟩
      rw [hU i i' r k v hread hi hi', h]
    · exact absurd (hU i i' r k v hread hi hi') hne
  · rw [if_neg (fun h => hw (hk.mp h))]
    simp [hw]

omit [ToString κ] in
theorem mem_successors (k : κ) (i j : Nat) :
    ((k, i), j) ∈ successors o X R ↔ Rmw H k i j := by
  simp only [successors, List.mem_flatMap, SetOrder.mem_iter, Prod.exists]
  constructor
  · rintro ⟨k', vs, hp, v, l, hq, r, hr, hm⟩
    have hl : R.get2? k' v = some l := Dict.get2?_eq_some.mpr ⟨vs, hp, hq⟩
    obtain ⟨i', he, hi, hw⟩ := (mem_successorOf hW hR hU hl hr _).mp hm
    cases he
    exact ⟨v, hi, (mem_readIndex hR j k v).mp ⟨l, hl, hr⟩, hw⟩
  · rintro ⟨v, hi, hr, hw⟩
    obtain ⟨l, hl, hj⟩ := (mem_readIndex hR j k v).mpr hr
    obtain ⟨vs, hp, hq⟩ := Dict.get2?_eq_some.mp hl
    exact ⟨k, vs, hp, v, l, hq, j, hj, (mem_successorOf hW hR hU hl hj _).mpr ⟨i, rfl, hi, hw⟩⟩

omit [ToString κ] hW hU in
theorem nodup_successors : (successors o X R).Nodup := by
  have hindex := extIndex_spec hR
  have hshape : ∀ k kWrites writeTxns r p, p ∈ successorOf k kWrites writeTxns r →
      p.1.1 = (k : κ) ∧ p.2 = r := by
    intro k kWrites writeTxns r p hp
    rw [successorOf.eq_def] at hp
    split at hp
    · cases writeTxns with
      | nil => cases hp
      | cons Ti l => rw [List.mem_singleton.mp hp]; exact ⟨rfl, rfl⟩
    · cases hp
  have hone : ∀ (k : κ) kWrites writeTxns r, (successorOf k kWrites writeTxns r).Nodup := by
    intro k kWrites writeTxns r
    rw [successorOf.eq_def]
    split
    · cases writeTxns <;> simp
    · exact List.nodup_nil
  refine List.nodup_flatMap.mpr
    ⟨fun p hp => List.nodup_flatMap.mpr ⟨fun q hq => List.nodup_flatMap.mpr
    ⟨fun r _ => hone _ _ _ r, ?_⟩, ?_⟩, ?_⟩
  · have hn : (o.iter q.2).Nodup := (SetOrder.nodup_iter o q.2).mpr
      (hindex.nodup (Dict.get2?_eq_some.mpr ⟨p.2, hp, hq⟩))
    refine hn.imp (fun {r r'} hne x hx hx' => hne ?_)
    exact (hshape _ _ _ _ _ hx).2.symm.trans (hshape _ _ _ _ _ hx').2
  · -- a transaction externally reads one value of a key
    have hn := List.Pairwise.of_map Prod.fst (fun _ _ h => h) p.2.nodup
    refine hn.imp_of_mem (fun {q q'} hq hq' hne x hx hx' => hne ?_)
    obtain ⟨r, hr, hx⟩ := List.mem_flatMap.mp hx
    obtain ⟨r', hr', hx'⟩ := List.mem_flatMap.mp hx'
    have hrr : r = r' := (hshape _ _ _ _ _ hx).2.symm.trans (hshape _ _ _ _ _ hx').2
    subst hrr
    exact Has.unique ((mem_readIndex hR r p.1 q.1).mp
        ⟨q.2, Dict.get2?_eq_some.mpr ⟨p.2, hp, hq⟩, (SetOrder.mem_iter o _ r).mp hr⟩)
      ((mem_readIndex hR r p.1 q'.1).mp
        ⟨q'.2, Dict.get2?_eq_some.mpr ⟨p.2, hp, hq'⟩, (SetOrder.mem_iter o _ r).mp hr'⟩)
  · have hn := List.Pairwise.of_map Prod.fst (fun _ _ h => h) R.nodup
    refine hn.imp (fun {p p'} hne x hx hx' => hne ?_)
    simp only [List.mem_flatMap] at hx hx'
    obtain ⟨q, _, r, _, hx⟩ := hx
    obtain ⟨q', _, r', _, hx'⟩ := hx'
    exact (hshape _ _ _ _ _ hx).1.symm.trans (hshape _ _ _ _ _ hx').1

omit [ToString κ] in
theorem addWwpairs_eq : addWwpairs o X R =
    (successors o X R).foldlM addSuccessor Dict.empty := by
  have hX := extIndex_spec hW
  -- the assertion on reads of T0 holds because T0 is never stored as a writer
  let I : Wwpairs κ → Prop := fun ww => ∀ k, ww.get? (k, 0) = none
  have hI : ∀ p ∈ successors o X R, ∀ ww ww', I ww → addSuccessor ww p = .ok ww' → I ww' := by
    rintro ⟨⟨k, i⟩, j⟩ hp ww ww' hww hs k'
    obtain ⟨v, hw, _⟩ := (mem_successors hW hR hU k i j).mp hp
    rw [addSuccessor] at hs
    split at hs
    · cases hs
    · cases hs
      rw [Dict.get?_set_other _ _ _ _ (by simp [(Nat.pos_iff_ne_zero.mp hw.lt.1).symm])]
      exact hww k'
  refine foldlM_eq_flatMap I (fun p hp ww hww => ?_)
    (fun p hp q hq => hI q (List.mem_flatMap.mpr ⟨p, hp, hq⟩)) (fun _ => rfl)
  refine foldlM_eq_flatMap I (fun q hq ww hww => ?_)
    (fun q hq r hr => hI r (List.mem_flatMap.mpr ⟨p, hp, List.mem_flatMap.mpr ⟨q, hq, hr⟩⟩)) hww
  have hl : R.get2? p.1 q.1 = some q.2 := Dict.get2?_eq_some.mpr ⟨p.2, hp, hq⟩
  have hlen : (o.iter (getIn X p.1 q.1)).length ≤ 1 := by
    rcases writers_cases hX o p.1 q.1 with ⟨he, _⟩ | ⟨i, he, _⟩ | ⟨i, i', l', _, hne, hi, hi'⟩
    · simp [he]
    · simp [he]
    · obtain ⟨j, hj⟩ := List.exists_mem_of_ne_nil q.2 ((extIndex_spec hR).nonempty hl)
      exact absurd (hU i i' j p.1 q.1 ((mem_readIndex hR j p.1 q.1).mp ⟨q.2, hl, hj⟩) hi hi') hne
  simp only [require, hlen, decide_true, if_true, ok_bind]
  refine foldlM_eq_flatMap I (fun r hr ww hww => ?_)
    (fun r hr x hx => hI x (List.mem_flatMap.mpr ⟨p, hp,
    List.mem_flatMap.mpr ⟨q, hq, List.mem_flatMap.mpr ⟨r, hr, hx⟩⟩⟩)) hww
  rw [addWwpair.eq_def, successorOf.eq_def]
  split
  · cases o.iter (getIn X p.1 q.1) with
    | nil =>
      simp only [hww p.1, require, Option.isNone_none, if_true, ok_bind]
      rfl
    | cons Ti l => simp [addSuccessor]
  · rfl

omit [ToString κ] in
/-- The read-modify-writes of a history, unless versions diverge. -/
theorem addWwpairs_cases :
    (∃ ww, addWwpairs o X R = .ok ww ∧ ∀ k i j, ww.get? (k, i) = some j ↔ Rmw H k i j) ∨
      (addWwpairs o X R = .error (.reject "versions diverge") ∧
        ∃ k i j j', j ≠ j' ∧ Rmw H k i j ∧ Rmw H k i j') := by
  rw [addWwpairs_eq hW hR hU]
  rcases addSuccessors_spec (successors o X R) Dict.empty with ⟨ww, h, hm⟩ | ⟨h, hbad⟩
  · refine .inl ⟨ww, h, fun k i j => ?_⟩
    rw [hm, ← mem_successors (o := o) hW hR hU]
    simp
  · refine .inr ⟨h, ?_⟩
    have hdup : ¬ ((successors o X R).map Prod.fst).Nodup := by
      rcases hbad with ⟨x, y, hs, _⟩ | hbad
      · simp at hs
      · exact hbad
    by_contra hno
    refine hdup ((List.nodup_map_iff_inj_on (nodup_successors hR)).mpr ?_)
    rintro ⟨⟨k, i⟩, j⟩ hx ⟨⟨k', i'⟩, j'⟩ hy he
    cases he
    by_contra hne
    exact hno ⟨k, i, j, j', fun h => hne (h ▸ rfl), (mem_successors hW hR hU k i j).mp hx,
      (mem_successors hW hR hU k i j').mp hy⟩

end Wwpairs

section FinalState

variable (o : SetOrder) (X : Index κ Value)

def finalReadersStep (Tf : Nat) (rf : ReadFrom κ) (p : κ × Value) : ReadFrom κ :=
  match o.iter (getIn X p.1 p.2) with
  | [] => addReaders o p.1 0 [Tf] rf
  | [Ti] => addReaders o p.1 Ti [Tf] rf
  | _ => rf

omit [ToString κ] in
theorem finalRead_eq (Tf : Nat) (G : ArgumentedPolyGraph κ) (rf : ReadFrom κ) (p : κ × Value) :
    finalRead o X Tf (G, rf) p =
      (play G (finalReadScript o X Tf p)).map (fun G => (G, finalReadersStep o X Tf rf p)) := by
  rcases hw : o.iter (getIn X p.1 p.2) with _ | ⟨Ti, _ | ⟨Tk, l⟩⟩ <;>
    simp only [finalRead, finalReadScript, finalReadersStep, hw]
  · rw [play_cons]
    simp only [exec]
    cases G.addEdge 0 Tf .wr with
    | error e => rfl
    | ok G' => cases hT : (TkSetFn X p.1 [0, Tf]).isEmpty <;> simp [require, Except.map]
  · rw [play_cons]
    simp only [exec]
    cases G.addEdge Ti Tf .wr with
    | error e => rfl
    | ok G' =>
      have hloop : (o.iter (TkSetFn X p.1 [Ti, Tf])).foldlM
        (fun g Tk => g.addEdge Tk Ti .ww) G' = play G' _ :=
        foldlM_eq_play_map (fun Tk => .edge ⟨Tk, Ti, .ww⟩) (fun _ _ _ => rfl) G'
      simp only [ok_bind, hloop]
      cases play G' _ <;> rfl
  · rfl

omit [ToString κ] in
theorem processFinalState_eq (Tf : Nat) (d : Dict κ Value) (G : ArgumentedPolyGraph κ)
    (rf : ReadFrom κ) :
    processFinalState o X Tf d (G, rf) = (play G (finalStateScript o X Tf G.nNodes d)).map
      (fun G => (G, d.entries.foldl (finalReadersStep o X Tf) rf)) := by
  rw [processFinalState, finalStateScript, play_append,
    foldlM_eq_play_with _ (fun p _ G rf => finalRead_eq o X Tf G rf p) G rf]
  cases hp : play G (d.entries.flatMap (finalReadScript o X Tf)) with
  | error e => rfl
  | ok G' =>
    have hloop : (List.range (G.nNodes - 1)).foldlM
      (fun g i => g.addEdge i Tf .cb) G' = play G' _ :=
      foldlM_eq_play_map (fun i => .edge ⟨i, Tf, .cb⟩) (fun _ _ _ => rfl) G'
    simp only [Except.map, ok_bind, (play_played hp).nNodes, hloop]
    cases play G' _ <;> rfl

/-- The readers of the final state, added to those of the transactions. -/
def finalReaders (H : List (Entry (Mop κ Value))) (rf : ReadFrom κ) : ReadFrom κ :=
  match finalDicts H with
  | .error _ => rf
  | .ok (d₁, d₂) =>
    d₂.entries.foldl (finalReadersStep o X (H.length - 1))
      (d₁.entries.foldl (finalReadersStep o X (H.length - 1)) rf)

omit [ToString κ] in
theorem addFinal_eq (H : List (Entry (Mop κ Value))) (G : ArgumentedPolyGraph κ) (rf : ReadFrom κ)
    (hn : G.nNodes = H.length) : addFinal o H X (G, rf) =
      (play G (finalScript o H X)).map (fun G => (G, finalReaders o X H rf)) := by
  rw [addFinal, finalScript, finalReaders, finalDicts]
  cases hq : finalQuery H with
  | error e => rfl
  | ok q =>
    obtain ⟨rs, dead⟩ := q
    simp only [ok_bind]
    cases h₁ : convertRs2dict rs with
    | error e => rfl
    | ok d₁ =>
      simp only [ok_bind]
      cases h₂ : convertRs2dict dead with
      | error e => rfl
      | ok d₂ =>
        simp only [ok_bind, play_append]
        rw [processFinalState_eq, hn]
        cases hp : play G (finalStateScript o X (H.length - 1) H.length d₁) with
        | error e => rfl
        | ok G' =>
          simp only [Except.map, ok_bind]
          rw [processFinalState_eq, (play_played hp).nNodes, hn]
          cases play G' _ <;> rfl

/-- The final query returns the version `v` of `k`. -/
def FinalValue (H : List (Entry (Mop κ Value))) (k : κ) (v : Value) : Prop :=
  ∃ d₁ d₂, finalDicts H = .ok (d₁, d₂) ∧ (d₁.get? k = some v ∨ d₂.get? k = some v)

variable {o} {H : List (Entry (Mop κ Value))} {t : Tables κ}

omit [ToString κ] in
theorem mem_convertRs2dict {rs : List (Record κ Value)} {d : Dict κ Value}
    (h : convertRs2dict rs = .ok d) {k : κ} {v : Value}
    (hk : d.get? k = some v) : ∃ item ∈ rs, item.id = k ∧ item.val = v := by
  have hall :=
    foldlM_invariant
      (fun d : Dict κ Value => ∀ k v, d.get? k = some v → ∃ item ∈ rs, item.id = k ∧ item.val = v)
    (fun d item d' hi hd hstep k v hk => by
      rw [bind_eq_ok] at hstep
      obtain ⟨_, _, he⟩ := hstep
      cases he
      rw [Dict.get?_set] at hk
      split at hk
      · rename_i hki
        cases hk
        exact ⟨item, hi, hki.symm, rfl⟩
      · exact hd k v hk) (fun k v hk => by simp at hk) h
  exact hall k v hk

omit [LinearOrder κ] [ToString κ] in
/-- The final query stands first in the last transaction. -/
theorem exists_finalQuery {rs dead : List (Record κ Value)} (h : finalQuery H = .ok (rs, dead))
    (hpos : 0 < H.length - 1) :
    ∃ k1 k2 fin rest, TxnAt H (H.length - 1) (.range k1 k2 rs dead fin :: rest) := by
  rw [finalQuery, bind_eq_ok] at h
  obtain ⟨mop, hmop, h⟩ := h
  obtain ⟨txn, htxn, hj⟩ := exists_mopAt hmop hpos
  cases txn with
  | nil => cases hj
  | cons mop' rest =>
    cases hj
    cases mop with
    | range k1 k2 rs' dead' fin =>
      cases h
      exact ⟨k1, k2, fin, rest, htxn⟩
    | r | w | i | d | append => cases h

omit [ToString κ] in
theorem FinalValue.exists_record {k : κ} {v : Value} (h : FinalValue H k v)
    (hpos : 0 < H.length - 1) :
    ∃ k1 k2 rs dead fin rest, TxnAt H (H.length - 1) (.range k1 k2 rs dead fin :: rest) ∧
      ∃ item ∈ rs ++ dead, item.id = k ∧ item.val = v := by
  obtain ⟨d₁, d₂, hd, hv⟩ := h
  rw [finalDicts, bind_eq_ok] at hd
  obtain ⟨⟨rs, dead⟩, hq, hd⟩ := hd
  rw [bind_eq_ok] at hd
  obtain ⟨d₁', h₁, hd⟩ := hd
  rw [bind_eq_ok] at hd
  obtain ⟨d₂', h₂, he⟩ := hd
  cases he
  obtain ⟨k1, k2, fin, rest, htxn⟩ := exists_finalQuery hq hpos
  refine ⟨k1, k2, rs, dead, fin, rest, htxn, ?_⟩
  rcases hv with hv | hv
  · obtain ⟨item, hi, he⟩ := mem_convertRs2dict h₁ hv
    exact ⟨item, List.mem_append_left _ hi, he⟩
  · obtain ⟨item, hi, he⟩ := mem_convertRs2dict h₂ hv
    exact ⟨item, List.mem_append_right _ hi, he⟩

omit [ToString κ] in
theorem mem_finalReaders (ht : t.Of H) {rf : ReadFrom κ} {k : κ} {i j : Nat}
    (h : j ∈ (finalReaders o t.extWrites H rf).getD (k, i) []) : j ∈ rf.getD (k, i) [] ∨
      (j = H.length - 1 ∧ ∃ v, FinalValue H k v ∧
        (Has extWritesFn H i k v ∨ (i = 0 ∧ ∀ x, ¬ Has extWritesFn H x k v))) := by
  have hX := extIndex_spec ht.extWrites
  let P : κ × Value → Prop := fun p => k = p.1 ∧ j = H.length - 1 ∧
    (Has extWritesFn H i p.1 p.2 ∨ (i = 0 ∧ ∀ x, ¬ Has extWritesFn H x p.1 p.2))
  have hstep : ∀ (rf : ReadFrom κ) p,
      j ∈ (finalReadersStep o t.extWrites (H.length - 1) rf p).getD (k, i) [] →
      j ∈ rf.getD (k, i) [] ∨ P p := by
    intro rf p hj
    rcases writers_cases hX o p.1 p.2 with ⟨he, hno⟩ | ⟨w, he, hw⟩ | ⟨w, w', l, he, _⟩ <;>
      simp only [finalReadersStep, he] at hj
    · rcases (mem_addReaders ..).mp hj with h | ⟨hk, hi, hj⟩
      · exact .inl h
      · exact .inr ⟨hk, List.mem_singleton.mp hj, .inr ⟨hi, hno⟩⟩
    · rcases (mem_addReaders ..).mp hj with h | ⟨hk, hi, hm⟩
      · exact .inl h
      · exact .inr ⟨hk, List.mem_singleton.mp hm, .inl (hi ▸ hw)⟩
    · exact .inl hj
  have hfold : ∀ (l : List (κ × Value)) (rf : ReadFrom κ),
      j ∈ (l.foldl (finalReadersStep o t.extWrites (H.length - 1)) rf).getD (k, i) [] →
      j ∈ rf.getD (k, i) [] ∨ ∃ p ∈ l, P p := by
    intro l
    induction l with
    | nil => exact fun rf hj => .inl hj
    | cons p l ih =>
      intro rf hj
      rcases ih _ hj with h | ⟨q, hq, hP⟩
      · exact (hstep rf p h).imp_right (fun hP => ⟨p, List.mem_cons_self, hP⟩)
      · exact .inr ⟨q, List.mem_cons_of_mem p hq, hP⟩
  rw [finalReaders] at h
  split at h
  · exact .inl h
  · rename_i d₁ d₂ hd
    rcases hfold _ _ h with h | ⟨⟨k', v⟩, hp, hk, hj, hw⟩
    · rcases hfold _ _ h with h | ⟨⟨k', v⟩, hp, hk, hj, hw⟩
      · exact .inl h
      · obtain rfl : k = k' := hk
        exact .inr ⟨hj, v, ⟨d₁, d₂, hd, .inl ((d₁.mem_entries k v).mp hp)⟩, hw⟩
    · obtain rfl : k = k' := hk
      exact .inr ⟨hj, v, ⟨d₁, d₂, hd, .inr ((d₂.mem_entries k v).mp hp)⟩, hw⟩

omit [ToString κ] in
/-- The final state only adds readers. -/
theorem mem_finalReaders_of_mem (o : SetOrder) (X : Index κ Value) (H : List (Entry (Mop κ Value)))
    {rf : ReadFrom κ}
    {k : κ} {i j : Nat} (h : j ∈ rf.getD (k, i) []) :
    j ∈ (finalReaders o X H rf).getD (k, i) [] := by
  have hfold : ∀ (l : List (κ × Value)) (rf : ReadFrom κ), j ∈ rf.getD (k, i) [] →
      j ∈ (l.foldl (finalReadersStep o X (H.length - 1)) rf).getD (k, i) [] := by
    intro l
    induction l with
    | nil => exact fun rf h => h
    | cons p l ih =>
      intro rf h
      refine ih _ ?_
      rw [finalReadersStep]
      split
      · exact (mem_addReaders ..).mpr (.inl h)
      · exact (mem_addReaders ..).mpr (.inl h)
      · exact h
  rw [finalReaders]
  split
  · exact h
  · exact hfold _ _ (hfold _ _ h)

end FinalState

section Script

variable (o : SetOrder) {H : List (Entry (Mop κ Value))}
  {histories : List (List (Entry (Mop κ Value)))} {strongSession hasFinal : Bool} {t : Tables κ}

/-- The assertions on a range query: integer values, records between the bounds. -/
def queryPre (k1 k2 : Option κ) (rs dead : List (Record κ Value)) : Except Err Unit := do
  let _ ← convertRs2dict rs
  let _ ← convertRs2dict dead
  assertReturned k1 k2 rs dead

omit [ToString κ] in
theorem addRangeQueries_eq (H : List (Entry (Mop κ Value))) (t : Tables κ)
    (G : ArgumentedPolyGraph κ) :
    (o.iter t.queries).foldlM (addRangeQuery o H t.upserts t.keys) G =
      play G (queriesScript o H t Prod.fst queryPre) := by
  apply foldlM_eq_play
  intro q _ G
  rw [addRangeQuery]
  cases hm : mopAt H q.1 q.2 with
  | error e => rfl
  | ok mop =>
    rw [ok_bind]
    cases mop with
    | range k1 k2 rs dead fin =>
      simp only [queryScript, queryPre]
      cases h₁ : convertRs2dict rs with
      | error e => rfl
      | ok d₁ =>
        cases h₂ : convertRs2dict dead with
        | error e => rfl
        | ok d₂ =>
          cases ha : assertReturned k1 k2 rs dead with
          | error e => rfl
          | ok u => exact foldlM_eq_play (fun k _ G => addOmittedKey_eq o t.upserts q.1 q.1 G k) G
    | r | w | i | d | append => rfl

/-- What the builder plays before it looks for read-modify-writes, and after. -/
def scriptBefore (H : List (Entry (Mop κ Value))) (histories : List (List (Entry (Mop κ Value))))
    (strongSession : Bool) (t : Tables κ) : Script :=
  (if strongSession then sessionScript histories else []) ++ initialScript H.length ++
    knownReadsScript o t

def scriptAfter (H : List (Entry (Mop κ Value))) (hasFinal : Bool) (t : Tables κ) : Script :=
  AdyaSI.finOf o H hasFinal t ++ queriesScript o H t Prod.fst queryPre

/-- All recorded readers. -/
def readersOf (H : List (Entry (Mop κ Value))) (hasFinal : Bool) (t : Tables κ) : ReadFrom κ :=
  let rf := readers o t.extWrites t.initial t.extReads
  if hasFinal then finalReaders o t.extWrites H rf else rf

theorem createKnowngraph_eq (ht : t.Of H) {A : Positions κ Value}
    (hA : allIndex H allWritesFn = .ok A) :
    createKnowngraph o H histories strongSession hasFinal = (do
      let g ← play ((ArgumentedPolyGraph.init H.length).setSessionOrder histories)
        (scriptBefore o H histories strongSession t)
      let ww ← addWwpairs o t.extWrites t.extReads
      let g ← play g (scriptAfter o H hasFinal t)
      .ok ⟨g, readersOf o H hasFinal t, ww, t.extWrites⟩) := by
  have hfin : ∀ (G : ArgumentedPolyGraph κ) rf, G.nNodes = H.length →
      optionally hasFinal (addFinal o H t.extWrites) (G, rf) =
      (play G (AdyaSI.finOf o H hasFinal t)).map
        (fun G => (G, if hasFinal = true then finalReaders o t.extWrites H rf else rf)) := by
    intro G rf hn
    cases hasFinal with
    | false => rfl
    | true => exact addFinal_eq o t.extWrites H G rf hn
  simp only [createKnowngraph, ht.extWrites, ht.extReads, ht.initial, ht.upserts, ht.keys,
    ht.queries, hA, ok_bind, optionally_sessionOrder_eq, scriptBefore, scriptAfter, play_append]
  cases h₁ : play ((ArgumentedPolyGraph.init H.length).setSessionOrder histories)
      (if strongSession = true then sessionScript histories else []) with
  | error e => rfl
  | ok G₁ =>
    have hn₁ : G₁.nNodes = H.length := (play_played h₁).nNodes
    simp only [ok_bind, addInitialOrder_eq, hn₁]
    cases h₂ : play G₁ (initialScript H.length) with
    | error e => rfl
    | ok G₂ =>
      simp only [ok_bind, addReads_eq]
      cases h₃ : play G₂ (knownReadsScript o t) with
      | error e => rfl
      | ok G₃ =>
        have hn₃ : G₃.nNodes = H.length := by
          rw [(play_played h₃).nNodes, (play_played h₂).nNodes, hn₁]
        simp only [Except.map, ok_bind]
        cases addWwpairs o t.extWrites t.extReads with
        | error e => rfl
        | ok ww =>
          simp only [ok_bind, hfin _ _ hn₃]
          cases h₄ : play G₃ (AdyaSI.finOf o H hasFinal t) with
          | error e => rfl
          | ok G₄ =>
            simp only [Except.map, ok_bind, addRangeQueries_eq]
            rfl

/-- Tables exist whenever the builder returns. -/
theorem tables_of_ok {known : KnownGraph κ}
    (h : createKnowngraph o H histories strongSession hasFinal = .ok known) :
    ∃ t : Tables κ, t.Of H ∧ ∃ A, allIndex H allWritesFn = .ok A := by
  simp only [createKnowngraph, bind_eq_ok] at h
  obtain ⟨_, _, init, hinit, X, hX, R, hR, _, _, _, _, _, _, ⟨_, _⟩, _, A, hA, ups, hups, K, hK,
    qs, hqs, _⟩ := h
  exact ⟨⟨X, R, init, ups, K, qs⟩, ⟨hX, hR, hinit, hups, hK, hqs⟩, A, hA⟩

end Script

section Outcome

variable {o : SetOrder} {H : List (Entry (Mop κ Value))}
  {histories : List (List (Entry (Mop κ Value)))} {strongSession hasFinal : Bool} {t : Tables κ}

/-- Two transactions read and then overwrite the same version. -/
def Diverging (H : List (Entry (Mop κ Value))) : Prop :=
  ∃ k i j j', j ≠ j' ∧ Rmw H k i j ∧ Rmw H k i j'

/-- Facts of the history about which the chain builder adds edges, or raises. -/
abbrev Known (o : SetOrder) (H : List (Entry (Mop κ Value)))
    (histories : List (List (Entry (Mop κ Value))))
    (strongSession hasFinal : Bool) (t : Tables κ) : Except Err Cmd → Prop :=
  KnownStep H histories strongSession t.initial Prod.fst (AdyaSI.finOf o H hasFinal t)

theorem mem_scripts (ht : t.Of H)
    (hU : ∀ i i' j k v, Has extReadsFn H j k v → Has extWritesFn H i k v →
      Has extWritesFn H i' k v → i = i')
    (hpre : ∀ q m k1 k2 rs dead, RangeAt H q m k1 k2 rs dead → queryPre k1 k2 rs dead = .ok ())
    (x : Except Err Cmd) :
    x ∈ scriptBefore o H histories strongSession t ∨ x ∈ scriptAfter o H hasFinal t ↔
      Known o H histories strongSession hasFinal t x := by
  refine Iff.trans ?_ (mem_known ht o hU hpre x)
  simp only [scriptBefore, scriptAfter, List.mem_append, or_assoc]

/-- What a returned known graph holds. -/
structure Built (o : SetOrder) (H : List (Entry (Mop κ Value)))
    (histories : List (List (Entry (Mop κ Value))))
    (strongSession hasFinal : Bool) (t : Tables κ) (known : KnownGraph κ) : Prop where
  nNodes : known.g.nNodes = H.length
  sessions : known.g.histories = histories.map (·.map Entry.id)
  inv : known.g.Inv
  before : ∀ a b, known.g.Before a b ↔
    ∃ e, e.before = (a, b) ∧ Known o H histories strongSession hasFinal t (.ok (.edge e))
  valid : ∀ x, Known o H histories strongSession hasFinal t x → ∃ c, x = .ok c ∧ c.Valid H.length
  unique : ∀ i i' j k v, Has extReadsFn H j k v → Has extWritesFn H i k v →
    Has extWritesFn H i' k v → i = i'
  readfrom : known.readfrom = readersOf o H hasFinal t
  wwpairs : ∀ k i j, known.wwpairs.get? (k, i) = some j ↔ Rmw H k i j
  extWrites : known.extWrites = t.extWrites

theorem built_of_ok {known : KnownGraph κ}
    (h : createKnowngraph o H histories strongSession hasFinal = .ok known) :
    ∃ t, t.Of H ∧ Built o H histories strongSession hasFinal t known := by
  obtain ⟨t, ht, A, hA⟩ := tables_of_ok o h
  rw [createKnowngraph_eq o ht hA] at h
  simp only [bind_eq_ok] at h
  obtain ⟨G₁, h₁, ww, hww, G₂, h₂, he⟩ := h
  cases he
  have hp₁ := play_played h₁
  have hp₂ := play_played h₂
  have hn₁ : G₁.nNodes = H.length := hp₁.nNodes
  have hv₁ := play_valid h₁
  have hv₂ := play_valid h₂
  have hU := unique_of_known ht.extWrites ht.extReads (o := o) (fun x hx =>
    (hv₁ x (List.mem_append_right _ hx)).imp fun c hc => hc.1)
  have hpre := pre_of_queries ht (fun x (hx : x ∈ queriesScript o H t Prod.fst queryPre) =>
    (hv₂ x (List.mem_append_right _ hx)).imp fun c hc => hc.1)
  have hmem : ∀ x, x ∈ scriptBefore o H histories strongSession t ∨ x ∈ scriptAfter o H hasFinal t ↔
      Known o H histories strongSession hasFinal t x := mem_scripts ht hU hpre
  have hinit := (ArgumentedPolyGraph.inv_init (κ := κ) H.length).setSessionOrder histories
  refine ⟨t, ht, hp₂.nNodes.trans hn₁, hp₂.histories.trans hp₁.histories, hp₂.inv (hp₁.inv hinit),
    fun a b => ?_, fun x hx => ?_, hU, rfl, ?_, rfl⟩
  · rw [hp₂.before, hp₁.before]
    constructor
    · rintro ((⟨_, _, _, h, _⟩ | ⟨e, he, hb⟩) | ⟨e, he, hb⟩)
      · cases h
      · exact ⟨e, hb, (hmem _).mp (.inl he)⟩
      · exact ⟨e, hb, (hmem _).mp (.inr he)⟩
    · rintro ⟨e, hb, hk⟩
      rcases (hmem _).mpr hk with he | he
      · exact .inl (.inr ⟨e, he, hb⟩)
      · exact .inr ⟨e, he, hb⟩
  · rcases (hmem x).mpr hx with hx | hx
    · exact hv₁ x hx
    · exact hn₁ ▸ hv₂ x hx
  · rcases addWwpairs_cases (o := o) ht.extWrites ht.extReads hU with ⟨ww', hww', hr⟩ | ⟨hrej, _⟩
    · obtain rfl : ww' = ww := Except.ok.inj (hww'.symm.trans hww)
      exact hr
    · rw [hww] at hrej
      cases hrej

/-- The assertions behind the chain builder, on its input. -/
structure Checked (o : SetOrder) (H : List (Entry (Mop κ Value)))
    (histories : List (List (Entry (Mop κ Value))))
    (strongSession hasFinal : Bool) (t : Tables κ) : Prop where
  plain : AdyaSI.Checked o H histories strongSession hasFinal t
  written : ∃ A, allIndex H allWritesFn = .ok A
  values : ∀ q m k1 k2 rs dead, RangeAt H q m k1 k2 rs dead →
    ∀ item ∈ rs ++ dead, item.val.isInt = true

omit [ToString κ] in
theorem convertRs2dict_total {rs : List (Record κ Value)} (h : ∀ item ∈ rs, item.val.isInt = true) :
    ∃ d, convertRs2dict rs = .ok d := by
  obtain ⟨d, hd, _⟩ := foldlM_total (fun _ => True) (l := rs) (s := Dict.empty)
    (f := fun d (item : Record κ Value) => do
      require item.val.isInt ""
      .ok (d.set item.id item.val))
        (fun d item hi _ => ⟨_, by simp [require, h item hi]; rfl, trivial⟩) trivial
  exact ⟨d, hd⟩

section Run

variable (h : Checked o H histories strongSession hasFinal t)
include h

theorem Checked.mem_scripts (x : Except Err Cmd) :
    x ∈ scriptBefore o H histories strongSession t ∨ x ∈ scriptAfter o H hasFinal t ↔
      Known o H histories strongSession hasFinal t x := by
  refine AdyaSIChain.mem_scripts h.plain.tables h.plain.unique (fun q m k1 k2 rs dead hr => ?_) x
  have hv := h.values q m k1 k2 rs dead hr
  obtain ⟨d₁, h₁⟩ := convertRs2dict_total (fun item hi => hv item (List.mem_append_left _ hi))
  obtain ⟨d₂, h₂⟩ := convertRs2dict_total (fun item hi => hv item (List.mem_append_right _ hi))
  rw [queryPre, h₁, ok_bind, h₂, ok_bind]
  exact h.plain.returned q m k1 k2 rs dead hr

theorem Checked.valid {c : Cmd} (hc : Known o H histories strongSession hasFinal t (.ok c)) :
    c.Valid H.length :=
  h.plain.valid c hc.ok_limit

theorem Checked.rejects {e : Err} (he : Known o H histories strongSession hasFinal t (.error e)) :
    ∃ msg, e = .reject msg := by
  cases he with
  | dirtyRead => exact ⟨_, rfl⟩
  | final hx => exact h.plain.rejects e (.final hx)
  | ownUpsert => exact ⟨_, rfl⟩

/-- Checked input with a reason to reject it is rejected. -/
theorem Checked.rejected
    (hbad : (∃ e, Known o H histories strongSession hasFinal t (.error e)) ∨ Diverging H) :
    ∃ msg, createKnowngraph o H histories strongSession hasFinal = .error (.reject msg) := by
  obtain ⟨A, hA⟩ := h.written
  have hmem := h.mem_scripts
  rw [createKnowngraph_eq o h.plain.tables hA]
  let G₀ : ArgumentedPolyGraph κ := (ArgumentedPolyGraph.init H.length).setSessionOrder histories
  have hG₀ : G₀.nNodes = H.length := rfl
  by_cases h₁ : ∃ e, .error e ∈ scriptBefore o H histories strongSession t
  · obtain ⟨e, he⟩ := h₁
    obtain ⟨e', hplay, hm⟩ := play_raises (G := G₀) (fun c hc => h.valid ((hmem _).mp (.inl hc))) he
    obtain ⟨msg, rfl⟩ := h.rejects ((hmem _).mp (.inl hm))
    exact ⟨msg, by rw [hplay]; rfl⟩
  · obtain ⟨G₁, hplay₁, hp₁⟩ :=
      play_spec (G := G₀) (S := scriptBefore o H histories strongSession t) (fun x hx => by
      cases x with
      | ok c => exact ⟨c, rfl, h.valid ((hmem _).mp (.inl hx))⟩
      | error e => exact absurd ⟨e, hx⟩ h₁)
    rw [hplay₁, ok_bind]
    rcases addWwpairs_cases (o := o) h.plain.tables.extWrites h.plain.tables.extReads h.plain.unique
      with ⟨ww, hww, hr⟩ | ⟨hrej, _⟩
    · rcases hbad with ⟨e, he⟩ | ⟨k, i, j, j', hne, hj, hj'⟩
      · have hafter := ((hmem _).mpr he).resolve_left (fun he => h₁ ⟨e, he⟩)
        obtain ⟨e', hplay₂, hm⟩ := play_raises (G := G₁) (fun c hc =>
          hp₁.nNodes ▸ hG₀ ▸ h.valid ((hmem _).mp (.inr hc))) hafter
        obtain ⟨msg, rfl⟩ := h.rejects ((hmem _).mp (.inr hm))
        exact ⟨msg, by rw [hww, ok_bind, hplay₂]; rfl⟩
      · have h₁ := (hr k i j).mpr hj
        have h₂ := (hr k i j').mpr hj'
        rw [h₁] at h₂
        exact absurd (Option.some.inj h₂) hne
    · exact ⟨_, by rw [hrej]; rfl⟩

/-- Without such a reason the known graph is built. -/
theorem Checked.built (hno : ∀ e, ¬ Known o H histories strongSession hasFinal t (.error e))
    (hdiv : ¬ Diverging H) :
    ∃ known, createKnowngraph o H histories strongSession hasFinal = .ok known ∧
      Built o H histories strongSession hasFinal t known := by
  obtain ⟨A, hA⟩ := h.written
  have hmem := h.mem_scripts
  let G₀ : ArgumentedPolyGraph κ := (ArgumentedPolyGraph.init H.length).setSessionOrder histories
  have hG₀ : G₀.nNodes = H.length := rfl
  obtain ⟨G₁, hplay₁, hp₁⟩ :=
    play_spec (G := G₀) (S := scriptBefore o H histories strongSession t) (fun x hx => by
    cases x with
    | ok c => exact ⟨c, rfl, h.valid ((hmem _).mp (.inl hx))⟩
    | error e => exact absurd ((hmem _).mp (.inl hx)) (hno e))
  obtain ⟨G₂, hplay₂, hp₂⟩ := play_spec (G := G₁) (S := scriptAfter o H hasFinal t) (fun x hx => by
    cases x with
    | ok c => exact ⟨c, rfl, hp₁.nNodes ▸ hG₀ ▸ h.valid ((hmem _).mp (.inr hx))⟩
    | error e => exact absurd ((hmem _).mp (.inr hx)) (hno e))
  rcases addWwpairs_cases (o := o) h.plain.tables.extWrites h.plain.tables.extReads h.plain.unique
    with ⟨ww, hww, hr⟩ | ⟨_, k, i, j, j', hbad⟩
  · have hok : createKnowngraph o H histories strongSession hasFinal =
        .ok ⟨G₂, readersOf o H hasFinal t, ww, t.extWrites⟩ := by
      rw [createKnowngraph_eq o h.plain.tables hA, hplay₁, ok_bind, hww, ok_bind, hplay₂]
      rfl
    obtain ⟨t', ht', hb⟩ := built_of_ok hok
    obtain rfl := ht'.unique h.plain.tables
    exact ⟨_, hok, hb⟩
  · exact absurd ⟨k, i, j, j', hbad⟩ hdiv

end Run

section Encoding

variable {known : KnownGraph κ} (hb : Built o H histories strongSession hasFinal t known)
  (ht : t.Of H)
include hb ht

/-- Recorded readers are transactions of the history. -/
theorem Built.reader_lt {k : κ} {i j : Nat} (hj : j ∈ known.readfrom.getD (k, i) []) :
    j < H.length := by
  have hbase : ∀ {j}, j ∈ (readers o t.extWrites t.initial t.extReads).getD (k, i) [] →
      j < H.length := by
    intro j hj
    obtain ⟨v, hr, _⟩ := (mem_readers_iff ht hb.unique k i j).mp hj
    exact hr.lt.2
  have hpos : 0 < H.length := List.length_pos_iff.mpr ht.loaded.1
  rw [hb.readfrom, readersOf] at hj
  split at hj
  · rcases mem_finalReaders ht hj with hj | ⟨rfl, _⟩
    · exact hbase hj
    · omega
  · exact hbase hj

theorem Built.extWrites_spec : IndexOf known.extWrites (Has extWritesFn H) :=
  hb.extWrites ▸ extIndex_spec ht.extWrites

omit ht in
/-- A transaction overwrites the version it has read, of one writer. -/
theorem Built.wwpairs_injective (k : κ) (a a' b : Nat) (h : known.wwpairs.get? (k, a) = some b)
    (h' : known.wwpairs.get? (k, a') = some b) : a = a' := by
  obtain ⟨v, hw, hr, _⟩ := (hb.wwpairs k a b).mp h
  obtain ⟨v', hw', hr', _⟩ := (hb.wwpairs k a' b).mp h'
  obtain rfl := hr.unique hr'
  exact hb.unique a a' b k v hr hw hw'

omit ht in
theorem Built.wwpairs_writes (k : κ) (a b : Nat) (h : known.wwpairs.get? (k, a) = some b) :
    (∃ v, Has extWritesFn H a k v) ∧ ∃ v, Has extWritesFn H b k v := by
  obtain ⟨v, hw, _, hw'⟩ := (hb.wwpairs k a b).mp h
  exact ⟨⟨v, hw⟩, hw'⟩

/-- No reader of a version overwrites itself. -/
theorem Built.inferScript_valid {chains : ChainTable κ}
    (hc : Versions.Chaining (workload H) (Rmw H) chains.of) :
    ∀ x ∈ inferScript o chains known.readfrom, ∃ c, x = .ok c ∧ c.Valid H.length := by
  intro x hx
  obtain ⟨k, C, a, b, r, hC, hl, hr, hne, rfl⟩ := (mem_inferScript o chains known.readfrom x).mp hx
  obtain ⟨v, hw⟩ := hc.writes_of_mem hC hl.mem.2
  exact ⟨_, rfl, hne, Nat.pos_iff_ne_zero.mp hw.lt.1, hb.reader_lt ht hr⟩

/-- The constraints are those of complete chains, or a chain closes. -/
theorem Built.genConstraints_cases :
    (∃ chains : ChainTable κ, Versions.Chaining (workload H) (Rmw H) chains.of ∧
      ∃ g, genConstraints o known = .ok (g, coalesceAll o chains known.readfrom) ∧
        Played (inferScript o chains known.readfrom) known.g g) ∨
    ∃ (k : κ) (C : Chain), C.txns.IsChain (Rmw H k) ∧ Rmw H k C.last C.first ∧
      genConstraints o known = .error (.reject "cyclic dependency") := by
  have hlink : ∀ k, (fun a b => known.wwpairs.get? (k, a) = some b) = Rmw H k := by
    intro k
    funext a b
    exact propext (hb.wwpairs k a b)
  rcases Viper.genConstraints_cases (o := o) (fun chain1 chain2 =>
      if chain1 = chain2 then .error (.reject "cyclic dependency") else .ok ())
        (fun C D hne => if_neg hne)
      (hb.extWrites_spec ht) hb.wwpairs_injective hb.wwpairs_writes known.g known.readfrom with
    ⟨chains, hc, hg⟩ | ⟨k, C, hC, hl, hg⟩
  · have hc' : Versions.Chaining (workload H) (Rmw H) chains.of := fun k => hlink k ▸ hc k
    obtain ⟨g, hplay, hp⟩ := play_spec (G := known.g) (S := inferScript o chains known.readfrom)
      (fun x hx => hb.nNodes ▸ hb.inferScript_valid ht hc' x hx)
    refine .inl ⟨chains, hc', g, ?_, hp⟩
    rw [hplay] at hg
    exact hg
  · rw [if_pos rfl] at hg
    exact .inr ⟨k, C, hlink k ▸ hC, (hb.wwpairs _ _ _).mp hl, hg⟩

omit hb ht in
/-- What a returned encoding consists of. -/
theorem encoded_of_ok {g : ArgumentedPolyGraph κ} {con : List Constraint}
    (h : constructEncoding o H histories strongSession hasFinal = .ok (g, con)) :
    ∃ t known, ∃ chains : ChainTable κ,
      t.Of H ∧ Built o H histories strongSession hasFinal t known ∧
      Versions.Chaining (workload H) (Rmw H) chains.of ∧
      Played (inferScript o chains known.readfrom) known.g g ∧
      con = coalesceAll o chains known.readfrom := by
  rw [constructEncoding, bind_eq_ok] at h
  obtain ⟨known, hknown, hgen⟩ := h
  obtain ⟨t, ht, hb⟩ := built_of_ok hknown
  rcases hb.genConstraints_cases ht with ⟨chains, hc, g', hg, hp⟩ | ⟨_, _, _, _, hg⟩
  · rw [hg] at hgen
    cases hgen
    exact ⟨t, known, chains, ht, hb, hc, hp, rfl⟩
  · rw [hg] at hgen
    cases hgen

end Encoding

end Outcome

end AdyaSIChain

end Viper
