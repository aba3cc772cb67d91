import Viper.Summaries

/-!
# The accesses that `check_INT` compares

`check_INT` walks through a transaction twice. What it compares is a list of
assertions, reads and writes; whether it rejects the transaction depends on that
list alone. Inserts are missing from the list, and the write of a delete is not
recorded by the first pass.
-/
namespace Viper

open Py

variable {κ ν : Type}

/-- A write is `recorded` by the first pass, and `kept` as the last value of its
key by the second. -/
inductive Access (κ ν : Type) where
  | guard (e : Except Err Unit)
  | read (k : κ) (v : ν)
  | write (k : κ) (v : ν) (recorded kept : Bool)

/-- `[i or d, k, v, read_v, dead, succ]` as `[r, k, read_v, dead]` and `[w, k, v, succ]`. -/
def Mop.expand : Mop κ ν → List (Mop κ ν)
  | .i k v readV isDead succ => [.r k readV isDead, .w k v succ]
  | .d k v readV isDead succ => [.r k readV isDead, .w k v succ]
  | mop => [mop]

def expand (txn : List (Mop κ ν)) : List (Mop κ ν) := txn.flatMap Mop.expand

variable [LinearOrder κ]

theorem not_rejects_assertBounds (k1 k2 : Option κ) (id : κ) :
    ¬ Rejects (assertBounds k1 k2 id) := by
  cases k1 with
  | none => simp [Rejects, assertBounds]
  | some a =>
    simp only [assertBounds]
    split
    · cases k2 with
      | none => simp [Rejects]
      | some b => exact not_rejects_require _ _
    · simp [Rejects]

def recordAccesses (check : κ → Except Err Unit) (rs : List (Record κ ν)) : List (Access κ ν) :=
  rs.flatMap fun item => [.guard (check item.id), .read item.id item.val]

/-- The accesses of a micro-operation that `check_INT` compares. -/
def Mop.compared : Mop κ ν → List (Access κ ν)
  | .range k1 k2 rs dead _ =>
    recordAccesses (fun id => require (inBetween id k1 k2) "") rs ++
      recordAccesses (assertBounds k1 k2) dead
  | .r k v _ => [.read k v]
  | .d k v readV _ succ => [.guard (require succ ""), .read k readV, .write k v false true]
  | .w k v succ => [.write k v true succ]
  | .append _ _ => [.guard (.error (.assertion ""))]
  | .i _ _ _ _ _ => []

/-- The accesses a micro-operation makes: inserts and deletes read, then write. -/
def Mop.accesses : Mop κ ν → List (Access κ ν)
  | .i k v readV _ succ => [.read k readV, .write k v true succ]
  | .d k v readV _ succ => [.read k readV, .write k v true succ]
  | mop => mop.compared

/-- Before the first failed assertion, a read differs from the last value of its
key, or returns a value that is written only later. -/
def Conflicts (last : Dict κ ν) : List (Access κ ν) → Prop
  | [] => False
  | .guard e :: l => e = .ok () ∧ Conflicts last l
  | .read k v :: l =>
    (∃ u, last.get? k = some u ∧ u ≠ v) ∨ (∃ kept, .write k v true kept ∈ l) ∨
      Conflicts (last.set k v) l
  | .write k v _ kept :: l => Conflicts (if kept then last.set k v else last) l

theorem compared_expand (txn : List (Mop κ ν)) :
    (expand txn).flatMap Mop.compared = txn.flatMap Mop.accesses := by
  rw [expand, List.flatMap_assoc]
  refine List.flatMap_congr (fun mop _ => ?_)
  cases mop <;> simp [Mop.expand, Mop.compared, Mop.accesses]

variable [DecidableEq ν]

def accessStep (writes : Dict (κ × ν) Nat) (n : Nat) (last : Dict κ ν) :
    Access κ ν → Except Err (Dict κ ν)
  | .guard e => do
    e
    .ok last
  | .read k v => do
    checkValidRead k last v n writes
    .ok (last.set k v)
  | .write k v _ kept => .ok (if kept then last.set k v else last)

theorem foldlM_recordAccesses (writes : Dict (κ × ν) Nat) (n : Nat) (check : κ → Except Err Unit)
    (rs : List (Record κ ν)) (last : Dict κ ν) :
    rs.foldlM (fun last item => do check item.id; intRecord n writes last item) last =
      (recordAccesses check rs).foldlM (accessStep writes n) last := by
  refine foldlM_eq_flatMap (fun _ => True) (fun item _ last _ => ?_)
    (fun _ _ _ _ _ _ _ _ => trivial) trivial
  simp only [List.foldlM_cons, List.foldlM_nil, accessStep, intRecord]
  cases check item.id with
  | error e => rfl
  | ok u =>
    simp only [ok_bind]
    cases checkValidRead item.id last item.val n writes <;> rfl

/-- One iteration of the second pass goes through the compared accesses. -/
theorem intStep_eq (writes : Dict (κ × ν) Nat) (last : Dict κ ν) (mop : Mop κ ν) (n : Nat) :
    intStep writes last (mop, n) = mop.compared.foldlM (accessStep writes n) last := by
  cases mop with
  | range k1 k2 rs dead fin =>
    rw [intStep, Mop.compared, List.foldlM_append, ← foldlM_recordAccesses]
    refine bind_congr (fun last => ?_)
    rw [← foldlM_recordAccesses]
  | r k v dead =>
    simp only [intStep, Mop.compared, List.foldlM_cons, List.foldlM_nil, accessStep]
    cases checkValidRead k last v n writes <;> rfl
  | d k v readV dead succ =>
    simp only [intStep, Mop.compared, List.foldlM_cons, List.foldlM_nil, accessStep]
    cases require succ "" with
    | error e => rfl
    | ok u =>
      simp only [ok_bind]
      cases checkValidRead k last readV n writes with
      | error e => rfl
      | ok u =>
        simp only [ok_bind, if_true, Dict.set_set]
        rfl
  | w k v succ => rfl
  | append k v => rfl
  | i k v readV dead succ => rfl

/-- The first pass over increasing positions: a later position replaces an earlier one. -/
theorem later_foldl_intWrites {ps : List (Mop κ ν × Nat)} (hp : ps.Pairwise (fun p q => p.2 < q.2))
    (k : κ) (v : ν)
    (n : Nat) (d : Dict (κ × ν) Nat) (hd : ∀ j, d.get? (k, v) = some j → ∀ p ∈ ps, j < p.2) :
    ((ps.foldl intWritesStep d).get? (k, v)).any (fun j => n < j) = true ↔
      (d.get? (k, v)).any (fun j => n < j) = true ∨ ∃ b j, (.w k v b, j) ∈ ps ∧ n < j := by
  induction ps generalizing d with
  | nil => simp
  | cons p ps ih =>
    obtain ⟨hfirst, hrest⟩ := List.pairwise_cons.mp hp
    have hnext : ∀ j, (intWritesStep d p).get? (k, v) = some j → ∀ q ∈ ps, j < q.2 := by
      intro j hj q hq
      rcases get?_intWritesStep hj with hj | ⟨b, he⟩
      · exact hd j hj q (List.mem_cons_of_mem p hq)
      · rw [he] at hfirst
        exact hfirst q hq
    have hstep : ((intWritesStep d p).get? (k, v)).any (fun j => n < j) = true ↔
        (d.get? (k, v)).any (fun j => n < j) = true ∨ ∃ b j, (.w k v b, j) = p ∧ n < j := by
      obtain ⟨mop, m⟩ := p
      cases mop with
      | w k₀ v₀ b₀ =>
        by_cases he : (k, v) = (k₀, v₀)
        · cases he
          have hget : (intWritesStep d (.w k v b₀, m)).get? (k, v) = some m :=
            Dict.get?_set_same _ _ _
          cases hj : d.get? (k, v) with
          | none => simp [hget]
          | some j =>
            have hlt : j < m := hd j hj _ List.mem_cons_self
            simp [hget]
            omega
        · have hget : (intWritesStep d (.w k₀ v₀ b₀, m)).get? (k, v) = d.get? (k, v) :=
            Dict.get?_set_other _ _ _ _ he
          rw [Prod.mk.injEq] at he
          simp only [hget, Prod.mk.injEq, Mop.w.injEq]
          tauto
      | r | i | d | range | append => simp [intWritesStep]
    rw [List.foldl_cons, ih hrest _ hnext, hstep, or_assoc]
    simp only [List.mem_cons]
    refine or_congr_right ?_
    constructor
    · rintro (⟨b, j, he, hj⟩ | ⟨b, j, hm, hj⟩)
      · exact ⟨b, j, .inl he, hj⟩
      · exact ⟨b, j, .inr hm, hj⟩
    · rintro ⟨b, j, he | hm, hj⟩
      · exact .inl ⟨b, j, he, hj⟩
      · exact .inr ⟨b, j, hm, hj⟩

/-- The position recorded for a version is later than that of `mop` when it is
written after `mop`. -/
theorem later_intWrites (pre : List (Mop κ ν)) (mop : Mop κ ν) (rest : List (Mop κ ν))
    (k : κ) (v : ν) :
    ((intWrites (pre ++ mop :: rest)).get? (k, v)).any (fun j => pre.length < j) = true ↔
      ∃ b, .w k v b ∈ rest := by
  have hp : ((pre ++ mop :: rest).zipIdx).Pairwise (fun p q => p.2 < q.2) := by
    have hr : (List.range' 0 (pre ++ mop :: rest).length).Pairwise (· < ·) :=
      List.pairwise_lt_range'
    rw [← List.zipIdx_map_snd, List.pairwise_map] at hr
    exact hr
  have h := later_foldl_intWrites hp k v pre.length Dict.empty (by simp)
  rw [show intWrites (pre ++ mop :: rest) =
    (pre ++ mop :: rest).zipIdx.foldl intWritesStep Dict.empty from rfl, h]
  simp only [Dict.get?_empty, Option.any_none, Bool.false_eq_true, false_or]
  refine exists_congr fun b => ?_
  constructor
  · rintro ⟨j, hm, hj⟩
    have hget := List.mk_mem_zipIdx_iff_getElem?.mp hm
    rw [List.getElem?_append_right hj.le] at hget
    obtain ⟨i, hi⟩ := Nat.exists_eq_add_of_lt hj
    rw [hi, show pre.length + i + 1 - pre.length = i + 1 by omega, List.getElem?_cons_succ] at hget
    exact List.mem_of_getElem? hget
  · intro hm
    obtain ⟨i, hi⟩ := List.mem_iff_getElem?.mp hm
    refine ⟨pre.length + (i + 1), List.mk_mem_zipIdx_iff_getElem?.mpr ?_, by omega⟩
    rw [List.getElem?_append_right (Nat.le_add_right _ _), Nat.add_sub_cancel_left,
      List.getElem?_cons_succ, hi]

theorem rejects_checkValidRead (k : κ) (last : Dict κ ν) (v : ν) (n : Nat)
    (writes : Dict (κ × ν) Nat) :
    (checkValidRead k last v n writes = .ok () ∧ ¬ ((∃ u, last.get? k = some u ∧ u ≠ v) ∨
        (writes.get? (k, v)).any (fun j => n < j) = true)) ∨
      (Rejects (checkValidRead k last v n writes) ∧ ((∃ u, last.get? k = some u ∧ u ≠ v) ∨
        (writes.get? (k, v)).any (fun j => n < j) = true)) := by
  have hlast : (last.get? k).any (· ≠ v) = true ↔ ∃ u, last.get? k = some u ∧ u ≠ v := by
    rw [Option.any_eq_true]
    simp
  rw [checkValidRead, ← hlast]
  split
  · rename_i h
    exact .inr ⟨⟨_, rfl⟩, .inl h⟩
  · rename_i h
    split
    · rename_i h'
      exact .inr ⟨⟨_, rfl⟩, .inr h'⟩
    · rename_i h'
      exact .inl ⟨rfl, not_or.mpr ⟨h, h'⟩⟩

/-- The accesses `as` of one micro-operation, followed by the rest `l` of the transaction. -/
theorem rejects_accesses {writes : Dict (κ × ν) Nat} {n : Nat} {as l : List (Access κ ν)}
    {rest : Dict κ ν → Except Err (Dict κ ν)}
    (hrest : ∀ last, Rejects (rest last) ↔ Conflicts last l)
    (hguard : ∀ e, .guard e ∈ as → ¬ Rejects e)
    (hread : ∀ k v, .read k v ∈ as → (∀ kept, .write k v true kept ∉ as) ∧
      ((writes.get? (k, v)).any (fun j => n < j) = true ↔ ∃ kept, .write k v true kept ∈ l))
    (last : Dict κ ν) :
    Rejects (as.foldlM (accessStep writes n) last >>= rest) ↔ Conflicts last (as ++ l) := by
  induction as generalizing last with
  | nil => exact hrest last
  | cons a as ih =>
    have ih := ih (fun e he => hguard e (List.mem_cons_of_mem a he)) (fun k v hr =>
      ⟨fun kept hw => (hread k v (List.mem_cons_of_mem a hr)).1 kept (List.mem_cons_of_mem a hw),
        (hread k v (List.mem_cons_of_mem a hr)).2⟩)
    rw [List.foldlM_cons, List.cons_append]
    cases a with
    | guard e =>
      cases e with
      | error e => simpa [accessStep, Conflicts, Rejects] using hguard _ List.mem_cons_self
      | ok u => simpa [accessStep, Conflicts] using ih last
    | read k v =>
      obtain ⟨hnone, hlater⟩ := hread k v List.mem_cons_self
      have hmem : (∃ kept, .write k v true kept ∈ as ++ l) ↔
          (writes.get? (k, v)).any (fun j => n < j) = true := by
        rw [hlater]
        refine exists_congr fun kept => ?_
        rw [List.mem_append]
        exact or_iff_right (fun hw => hnone kept (List.mem_cons_of_mem _ hw))
      rw [Conflicts, hmem, ← or_assoc]
      rcases rejects_checkValidRead k last v n writes with ⟨hok, hno⟩ | ⟨⟨msg, hbad⟩, hyes⟩
      · rw [accessStep, hok, ok_bind, ok_bind, ih]
        exact (or_iff_right hno).symm
      · rw [accessStep, hbad]
        exact iff_of_true ⟨msg, rfl⟩ (.inl hyes)
    | write k v recorded kept => exact ih _

omit [DecidableEq ν] in
theorem guard_compared {mop : Mop κ ν} {e : Except Err Unit} (h : .guard e ∈ mop.compared) :
    ¬ Rejects e := by
  cases mop with
  | range k1 k2 rs dead fin =>
    simp only [Mop.compared, recordAccesses, List.mem_append, List.mem_flatMap, List.mem_cons,
      Access.guard.injEq, reduceCtorEq, List.not_mem_nil, or_false] at h
    rcases h with ⟨item, _, rfl⟩ | ⟨item, _, rfl⟩
    · exact not_rejects_require _ _
    · exact not_rejects_assertBounds _ _ _
  | d k v readV dead succ =>
    simp only [Mop.compared, List.mem_cons, Access.guard.injEq, reduceCtorEq, List.not_mem_nil,
      or_false] at h
    rw [h]
    exact not_rejects_require _ _
  | append k v =>
    simp only [Mop.compared, List.mem_singleton, Access.guard.injEq] at h
    simp [h, Rejects]
  | r | w | i => simp [Mop.compared] at h

omit [DecidableEq ν] in
theorem write_compared {mop : Mop κ ν} {k : κ} {v : ν} {kept : Bool} :
    .write k v true kept ∈ mop.compared ↔ mop = .w k v kept := by
  cases mop <;> simp [Mop.compared, recordAccesses, eq_comm]

omit [DecidableEq ν] in
theorem not_read_w {k k' : κ} {v v' : ν} {b : Bool} : .read k v ∉ (Mop.w k' v' b).compared := by
  simp [Mop.compared]

/-- `check_INT` rejects a transaction whose compared accesses conflict. -/
theorem rejects_checkINT_iff (txn : List (Mop κ ν)) :
    Rejects (checkINT txn) ↔ Conflicts Dict.empty (txn.flatMap Mop.compared) := by
  have hrun : ∀ (pre rest : List (Mop κ ν)) (last : Dict κ ν), txn = pre ++ rest →
      (Rejects ((rest.zipIdx pre.length).foldlM (intStep (intWrites txn)) last) ↔
        Conflicts last (rest.flatMap Mop.compared)) := by
    intro pre rest
    induction rest generalizing pre with
    | nil => simp [Rejects, Conflicts, pure, Except.pure]
    | cons mop rest ih =>
      intro last htxn
      have hrest := fun last => ih (pre ++ [mop]) last (by simpa using htxn)
      rw [List.zipIdx_cons, List.foldlM_cons, intStep_eq, List.flatMap_cons]
      refine rejects_accesses (fun last => ?_) (fun e => guard_compared)
        (fun k v hr => ⟨fun kept hw => ?_, ?_⟩) last
      · rw [← hrest, List.length_append, List.length_singleton]
      · obtain rfl := write_compared.mp hw
        exact not_read_w hr
      · rw [htxn, later_intWrites]
        simp only [List.mem_flatMap, write_compared, exists_eq_right]
  have h := hrun [] txn Dict.empty rfl
  rw [← h, checkINT]
  constructor
  · rintro ⟨msg, hm⟩
    rcases bind_eq_error.mp hm with he | ⟨_, _, he⟩
    · exact ⟨msg, he⟩
    · cases he
  · rintro ⟨msg, hm⟩
    exact ⟨msg, bind_eq_error.mpr (.inl hm)⟩

section Settled

/-- The last values of the keys, once an access has been made. -/
def record (last : Dict κ ν) : Access κ ν → Dict κ ν
  | .guard _ => last
  | .read k v => last.set k v
  | .write k v _ kept => if kept then last.set k v else last

/-- The last value of every key, as far as `check_INT` compares accesses. -/
def lastCompared (txn : List (Mop κ ν)) : Dict κ ν :=
  (txn.flatMap Mop.compared).foldl record Dict.empty

/-- The last value of every key, inserts included. -/
def lastMade (txn : List (Mop κ ν)) : Dict κ ν := (txn.flatMap Mop.accesses).foldl record Dict.empty

/-- A key that was accessed before had another value. -/
def Misfit (last : Dict κ ν) (k : κ) (v : ν) : Prop := ∃ u, last.get? k = some u ∧ u ≠ v

/-- What makes `check_INT` compare inserts and deletes as it should. -/
structure Settled (txn : List (Mop κ ν)) : Prop where
  deletes : ∀ {k v readV dead succ}, .d k v readV dead succ ∈ txn → succ = true
  /-- an insert reads the last value of its key, and none that is written at or after it -/
  inserts : ∀ {pre k v readV dead succ rest}, txn = pre ++ .i k v readV dead succ :: rest →
    ¬ Misfit (lastMade pre) k readV ∧
      ∀ kept, .write k readV true kept ∉ .write k v true succ :: rest.flatMap Mop.accesses
  /-- no other read returns a value that an insert or a delete writes at or after it -/
  later : ∀ {pre mop rest k v readV dead succ}, txn = pre ++ mop :: rest →
    .read k v ∈ mop.compared →
    .i k v readV dead succ ∉ rest ∧ .d k v readV dead succ ∉ mop :: rest
  /-- a read after an insert fits the inserted value if it fits the older one it is compared with -/
  reads : ∀ {pre mop rest k v}, txn = pre ++ mop :: rest → .read k v ∈ mop.compared →
    (∃ v' readV dead succ, .i k v' readV dead succ ∈ pre) →
    (Misfit (lastCompared pre) k v ↔ Misfit (lastMade pre) k v)

omit [DecidableEq ν] in
theorem misfit_set {last last' : Dict κ ν} {k : κ} {v : ν} (h : Misfit last k v ↔ Misfit last' k v)
    (k' : κ) (v' : ν) : Misfit (last.set k' v') k v ↔ Misfit (last'.set k' v') k v := by
  by_cases hk : k = k'
  · simp [Misfit, hk]
  · simpa [Misfit, Dict.get?_set_other _ _ _ _ hk] using h

omit [DecidableEq ν] in
/-- The same accesses conflict in the same way when their reads are compared alike,
then and by what follows. -/
theorem conflicts_congr {as l l' : List (Access κ ν)} {last last' : Dict κ ν}
    (hrest : Conflicts (as.foldl record last) l ↔ Conflicts (as.foldl record last') l')
    (hfit : ∀ k v, .read k v ∈ as → (Misfit last k v ↔ Misfit last' k v))
    (hw : ∀ k v, .read k v ∈ as →
      ((∃ kept, .write k v true kept ∈ l) ↔ ∃ kept, .write k v true kept ∈ l')) :
    Conflicts last (as ++ l) ↔ Conflicts last' (as ++ l') := by
  induction as generalizing last last' with
  | nil => exact hrest
  | cons a as ih =>
    have hw' := fun k v hr => hw k v (List.mem_cons_of_mem a hr)
    have hfit' := fun k v hr => hfit k v (List.mem_cons_of_mem a hr)
    cases a with
    | guard e =>
      have htail : Conflicts last (as ++ l) ↔ Conflicts last' (as ++ l') := ih hrest hfit' hw'
      simp only [List.cons_append, Conflicts, htail]
    | read k v =>
      have hhead := hfit k v List.mem_cons_self
      have hlater := hw k v List.mem_cons_self
      have htail : Conflicts (last.set k v) (as ++ l) ↔ Conflicts (last'.set k v) (as ++ l') :=
        ih hrest (fun k' v' hr => misfit_set (hfit' k' v' hr) k v) hw'
      rw [Misfit, Misfit] at hhead
      simp only [List.cons_append, Conflicts, htail, hhead, List.mem_append, exists_or, hlater]
    | write k v recorded kept =>
      simp only [List.cons_append, Conflicts]
      cases kept with
      | false => exact ih hrest hfit' hw'
      | true => exact ih hrest (fun k' v' hr => misfit_set (hfit' k' v' hr) k v) hw'

omit [DecidableEq ν] in
theorem get?_foldl_record {as : List (Access κ ν)} {last last' : Dict κ ν} {k : κ}
    (h : last.get? k = last'.get? k) :
    (as.foldl record last).get? k = (as.foldl record last').get? k := by
  have hset : ∀ {d d' : Dict κ ν} (k' v'), d.get? k = d'.get? k →
      (d.set k' v').get? k = (d'.set k' v').get? k := by
    intro d d' k' v' hd
    rw [Dict.get?_set, Dict.get?_set, hd]
  induction as generalizing last last' with
  | nil => exact h
  | cons a as ih =>
    cases a with
    | guard e => exact ih h
    | read k' v' => exact ih (hset k' v' h)
    | write k' v' recorded kept =>
      cases kept with
      | false => exact ih h
      | true => exact ih (hset k' v' h)

omit [DecidableEq ν] in
/-- A key that is never inserted has the same last value either way. -/
theorem get?_lastCompared {pre : List (Mop κ ν)} {k : κ}
    (hdel : ∀ {k v readV dead succ}, .d k v readV dead succ ∈ pre → succ = true)
    (hno : ∀ v readV dead succ, .i k v readV dead succ ∉ pre) :
    (lastCompared pre).get? k = (lastMade pre).get? k := by
  have hrun : ∀ d d' : Dict κ ν, d.get? k = d'.get? k →
      ((pre.flatMap Mop.compared).foldl record d).get? k =
        ((pre.flatMap Mop.accesses).foldl record d').get? k := by
    induction pre with
    | nil => exact fun d d' h => h
    | cons mop pre ih =>
      intro d d' h
      have ih := ih (fun hm => hdel (List.mem_cons_of_mem mop hm))
        (fun v readV dead succ hm => hno v readV dead succ (List.mem_cons_of_mem mop hm))
      rw [List.flatMap_cons, List.flatMap_cons, List.foldl_append, List.foldl_append]
      apply ih
      cases mop with
      | i k' v readV dead succ =>
        have hne : k ≠ k' := by
          rintro rfl
          exact hno v readV dead succ List.mem_cons_self
        cases succ <;> simp [Mop.compared, Mop.accesses, record, Dict.get?_set_other _ _ _ _ hne, h]
      | d k' v readV dead succ =>
        obtain rfl := hdel List.mem_cons_self
        simp only [Mop.compared, Mop.accesses, List.foldl_cons, List.foldl_nil, record, if_true,
          Dict.get?_set, h]
      | r | w | range | append => exact get?_foldl_record h
  exact hrun Dict.empty Dict.empty rfl

namespace Settled

variable {txn : List (Mop κ ν)} (h : Settled txn)
include h

omit [DecidableEq ν] in
/-- What a read compares with the later writes. -/
theorem later_iff {pre rest : List (Mop κ ν)} {mop : Mop κ ν} {k : κ} {v : ν}
    (htxn : txn = pre ++ mop :: rest) (hr : .read k v ∈ mop.compared) :
    (∃ kept, .write k v true kept ∈ rest.flatMap Mop.compared) ↔
      ∃ kept, .write k v true kept ∈ rest.flatMap Mop.accesses := by
  refine exists_congr fun kept => ?_
  simp only [List.mem_flatMap]
  refine exists_congr fun m => and_congr_right fun hm => ?_
  cases m with
  | i k' v' readV dead succ =>
    have hne : ¬ (k = k' ∧ v = v') := by
      rintro ⟨rfl, rfl⟩
      exact (h.later htxn hr).1 hm
    simp only [Mop.compared, Mop.accesses, List.mem_cons, reduceCtorEq, Access.write.injEq,
      List.not_mem_nil]
    tauto
  | d k' v' readV dead succ =>
    have hne : ¬ (k = k' ∧ v = v') := by
      rintro ⟨rfl, rfl⟩
      exact (h.later htxn hr).2 (List.mem_cons_of_mem mop hm)
    simp only [Mop.compared, Mop.accesses, List.mem_cons, reduceCtorEq, Access.write.injEq,
      List.not_mem_nil]
    tauto
  | r | w | range | append => exact Iff.rfl

omit [DecidableEq ν] in
/-- What a read compares with the earlier accesses. -/
theorem misfit_iff {pre rest : List (Mop κ ν)} {mop : Mop κ ν} {k : κ} {v : ν}
    (htxn : txn = pre ++ mop :: rest) (hr : .read k v ∈ mop.compared) :
    Misfit (lastCompared pre) k v ↔ Misfit (lastMade pre) k v := by
  by_cases hins : ∃ v' readV dead succ, .i k v' readV dead succ ∈ pre
  · exact h.reads htxn hr hins
  · push Not at hins
    have hdel : ∀ {k v readV dead succ}, .d k v readV dead succ ∈ pre → succ = true :=
      fun hm => h.deletes (htxn ▸ List.mem_append_left _ hm)
    rw [Misfit, Misfit, get?_lastCompared hdel hins]

omit [DecidableEq ν] in
/-- The comparisons of a settled transaction are those of its reads and writes. -/
theorem conflicts_iff : Conflicts Dict.empty (txn.flatMap Mop.compared) ↔
    Conflicts Dict.empty (txn.flatMap Mop.accesses) := by
  have hrun : ∀ rest pre, txn = pre ++ rest →
      (Conflicts (lastCompared pre) (rest.flatMap Mop.compared) ↔
        Conflicts (lastMade pre) (rest.flatMap Mop.accesses)) := by
    intro rest
    induction rest with
    | nil => exact fun _ _ => Iff.rfl
    | cons mop rest ih =>
      intro pre htxn
      have hnext := ih (pre ++ [mop]) (by rw [htxn, List.append_assoc, List.singleton_append])
      have hlast : ∀ f : Mop κ ν → List (Access κ ν),
          ((pre ++ [mop]).flatMap f).foldl record Dict.empty =
          (f mop).foldl record ((pre.flatMap f).foldl record Dict.empty) := by
        intro f
        rw [List.flatMap_append, List.flatMap_singleton, List.foldl_append]
      rw [lastCompared, lastMade, hlast, hlast, ← lastCompared, ← lastMade] at hnext
      rw [List.flatMap_cons, List.flatMap_cons]
      cases mop with
      | i k v readV dead succ =>
        obtain ⟨hfit, hlater⟩ := h.inserts htxn
        have hnone :
          ¬ ∃ kept, .write k readV true kept ∈ .write k v true succ :: rest.flatMap Mop.accesses :=
          fun hw => hw.elim hlater
        rw [Misfit] at hfit
        simp only [Mop.compared, Mop.accesses, List.nil_append, List.cons_append,
          Conflicts, hfit, hnone, false_or]
        exact hnext
      | d k v readV dead succ =>
        obtain rfl := h.deletes (htxn ▸ List.mem_append_right pre List.mem_cons_self)
        have hr : .read k readV ∈ (Mop.d k v readV dead true).compared := by simp [Mop.compared]
        have hne : readV ≠ v := by
          rintro rfl
          exact (h.later htxn hr).2 List.mem_cons_self
        have hfit := h.misfit_iff htxn hr
        have hlater := h.later_iff htxn hr
        rw [Misfit, Misfit] at hfit
        simp only [Mop.compared, Mop.accesses, List.foldl_cons, List.foldl_nil, record, if_true]
          at hnext
        simp only [Mop.compared, Mop.accesses, List.cons_append, List.nil_append, Conflicts,
          List.mem_cons,
          Access.write.injEq, hne, hfit, hlater, hnext, require, if_true, true_and,
          false_and, and_false, false_or, Bool.true_eq_false]
      | r | w | range | append =>
        exact conflicts_congr hnext (fun k v hr => h.misfit_iff htxn hr)
          (fun k v hr => h.later_iff htxn hr)
  exact hrun txn [] rfl

end Settled

section Accepted

/-- The assertions of `check_INT` hold for a micro-operation. -/
def Mop.Sound (mop : Mop κ ν) : Prop := ∀ e, .guard e ∈ mop.compared → e = .ok ()

omit [DecidableEq ν] in
theorem not_conflicts_append {as l : List (Access κ ν)} {last : Dict κ ν}
    (hg : ∀ e, .guard e ∈ as → e = .ok ()) (h : ¬ Conflicts last (as ++ l)) :
    ¬ Conflicts (as.foldl record last) l := by
  induction as generalizing last with
  | nil => exact h
  | cons a as ih =>
    have ih := @ih (record last a) (fun e he => hg e (List.mem_cons_of_mem a he))
    apply ih
    intro hc
    apply h
    cases a with
    | guard e => exact ⟨hg e List.mem_cons_self, hc⟩
    | read k v => exact .inr (.inr hc)
    | write k v recorded kept => exact hc

omit [DecidableEq ν] in
/-- Reads without a write between them all return the last values, if none conflicts. -/
theorem fits_of_not_conflicts {rs l : List (Access κ ν)} {last : Dict κ ν}
    (hw : ∀ k v recorded kept, .write k v recorded kept ∉ rs) (hg : ∀ e, .guard e ∈ rs → e = .ok ())
    (h : ¬ Conflicts last (rs ++ l)) {k : κ} {v : ν} (hr : .read k v ∈ rs) :
    ¬ Misfit last k v ∧ ∀ kept, .write k v true kept ∉ l := by
  induction rs generalizing last with
  | nil => cases hr
  | cons a rs ih =>
    have ih := @ih (record last a)
      (fun k v recorded kept hm => hw k v recorded kept (List.mem_cons_of_mem a hm))
      (fun e he => hg e (List.mem_cons_of_mem a he))
    cases a with
    | guard e =>
      have htail : ¬ Conflicts last (rs ++ l) := fun hc => h ⟨hg e List.mem_cons_self, hc⟩
      exact ih htail (by simpa using hr)
    | write k' v' recorded kept => exact absurd List.mem_cons_self (hw k' v' recorded kept)
    | read k' v' =>
      simp only [List.cons_append, Conflicts, not_or] at h
      obtain ⟨hfit, hlater, htail⟩ := h
      rcases List.mem_cons.mp hr with he | hr
      · cases he
        exact ⟨hfit, fun kept hm => hlater ⟨kept, List.mem_append_right rs hm⟩⟩
      · obtain ⟨hfit', hlater'⟩ := ih htail hr
        refine ⟨?_, hlater'⟩
        by_cases hk : k = k'
        · -- the earlier read of the key has returned the same value
          subst hk
          have hv : v' = v := by
            by_contra hne
            exact hfit' ⟨v', Dict.get?_set_same _ _ _, hne⟩
          exact hv ▸ hfit
        · simpa [Misfit, record, Dict.get?_set_other _ _ _ _ hk] using hfit'

omit [DecidableEq ν] [LinearOrder κ] in
theorem mem_recordAccesses {check : κ → Except Err Unit} {rs : List (Record κ ν)} {a : Access κ ν}
    (h : a ∈ recordAccesses check rs) : (∃ e, a = .guard e) ∨ ∃ k v, a = .read k v := by
  simp only [recordAccesses, List.mem_flatMap, List.mem_cons, List.not_mem_nil, or_false] at h
  obtain ⟨item, _, rfl | rfl⟩ := h
  · exact .inl ⟨_, rfl⟩
  · exact .inr ⟨_, _, rfl⟩

/-- The accesses of a micro-operation are its reads and then its writes. -/
def ReadsFirst (as : List (Access κ ν)) : Prop :=
  ∃ rs ws : List (Access κ ν), as = rs ++ ws ∧
    (∀ k v recorded kept, .write k v recorded kept ∉ rs) ∧ ∀ k v, .read k v ∉ ws

omit [DecidableEq ν] in
theorem Mop.readsFirst_compared (mop : Mop κ ν) : ReadsFirst mop.compared := by
  cases mop with
  | r k v dead => exact ⟨[.read k v], [], rfl, by simp, by simp⟩
  | w k v succ => exact ⟨[], [.write k v true succ], rfl, by simp, by simp⟩
  | append k v => exact ⟨[.guard (.error (.assertion ""))], [], rfl, by simp, by simp⟩
  | i k v readV dead succ => exact ⟨[], [], rfl, by simp, by simp⟩
  | d k v readV dead succ =>
    exact ⟨[.guard (require succ ""), .read k readV], [.write k v false true], rfl, by simp,
      by simp⟩
  | range k1 k2 live dead fin =>
    refine ⟨_, [], (List.append_nil _).symm, fun k v recorded kept hm => ?_, by simp⟩
    rcases List.mem_append.mp hm with hm | hm <;>
      rcases mem_recordAccesses hm with ⟨_, he⟩ | ⟨_, _, he⟩ <;> cases he

omit [DecidableEq ν] in
theorem Mop.readsFirst_accesses (mop : Mop κ ν) : ReadsFirst mop.accesses := by
  cases mop with
  | i k v readV dead succ | d k v readV dead succ =>
    exact ⟨[.read k readV], [.write k v true succ], rfl, by simp, by simp⟩
  | r k v dead => exact (Mop.r k v dead).readsFirst_compared
  | w k v succ => exact (Mop.w k v succ).readsFirst_compared
  | range k1 k2 live dead fin => exact (Mop.range k1 k2 live dead fin).readsFirst_compared
  | append k v => exact (Mop.append k v).readsFirst_compared

omit [DecidableEq ν] in
theorem guard_of_accesses {mop : Mop κ ν} {e : Except Err Unit} (h : .guard e ∈ mop.accesses) :
    .guard e ∈ mop.compared := by
  cases mop with
  | i | d => simp [Mop.accesses] at h
  | r | w | range | append => exact h

omit [DecidableEq ν] in
theorem read_of_compared {mop : Mop κ ν} {k : κ} {v : ν} (h : .read k v ∈ mop.compared) :
    .read k v ∈ mop.accesses := by
  cases mop with
  | d => simpa [Mop.compared, Mop.accesses] using h
  | i => cases h
  | r | w | range | append => exact h

omit [DecidableEq ν] in
/-- Without a conflict, every read fits what comes before it, and nothing from there
on writes what it returns. -/
theorem fits_at {f : Mop κ ν → List (Access κ ν)} (hfirst : ∀ mop, ReadsFirst (f mop))
    {txn : List (Mop κ ν)} (hguard : ∀ mop ∈ txn, ∀ e, .guard e ∈ f mop → e = .ok ())
    (hno : ¬ Conflicts Dict.empty (txn.flatMap f)) {pre : List (Mop κ ν)} {mop : Mop κ ν}
    {rest : List (Mop κ ν)} (htxn : txn = pre ++ mop :: rest) {k : κ} {v : ν}
    (hr : .read k v ∈ f mop) :
    ¬ Misfit ((pre.flatMap f).foldl record Dict.empty) k v ∧
      ∀ kept, .write k v true kept ∉ f mop ++ rest.flatMap f := by
  subst htxn
  obtain ⟨rs, ws, hsplit, hrs, hws⟩ := hfirst mop
  have hpre : ∀ e, .guard e ∈ pre.flatMap f → e = .ok () := by
    intro e he
    obtain ⟨m, hm, he⟩ := List.mem_flatMap.mp he
    exact hguard m (List.mem_append_left _ hm) e he
  have hmop : ∀ e, .guard e ∈ rs → e = .ok () := by
    intro e he
    refine hguard mop (List.mem_append_right pre List.mem_cons_self) e ?_
    rw [hsplit]
    exact List.mem_append_left ws he
  have hin : .read k v ∈ rs := by
    rw [hsplit] at hr
    exact (List.mem_append.mp hr).resolve_right (hws k v)
  rw [List.flatMap_append, List.flatMap_cons] at hno
  have hrest := not_conflicts_append hpre hno
  rw [hsplit, List.append_assoc] at hrest ⊢
  obtain ⟨hfit, hlater⟩ := fits_of_not_conflicts hrs hmop hrest hin
  exact ⟨hfit, fun kept hm => (List.mem_append.mp hm).elim (hrs k v true kept) (hlater kept)⟩

omit [DecidableEq ν] in
/-- A transaction that conflicts neither way is settled, if its assertions hold. -/
theorem settled_of_not_conflicts {txn : List (Mop κ ν)} (hsound : ∀ mop ∈ txn, mop.Sound)
    (hC : ¬ Conflicts Dict.empty (txn.flatMap Mop.compared))
    (hA : ¬ Conflicts Dict.empty (txn.flatMap Mop.accesses)) : Settled txn := by
  have hcompared : ∀ {pre mop rest k v}, txn = pre ++ mop :: rest → .read k v ∈ mop.compared →
      ¬ Misfit (lastCompared pre) k v :=
    fun htxn hr => (fits_at Mop.readsFirst_compared hsound hC htxn hr).1
  have hmade : ∀ {pre mop rest k v}, txn = pre ++ mop :: rest → .read k v ∈ mop.accesses →
      ¬ Misfit (lastMade pre) k v ∧
        ∀ kept, .write k v true kept ∉ mop.accesses ++ rest.flatMap Mop.accesses :=
    fun htxn hr => fits_at Mop.readsFirst_accesses
      (fun mop hm e he => hsound mop hm e (guard_of_accesses he)) hA htxn hr
  refine ⟨?_, ?_, ?_, ?_⟩
  · intro k v readV dead succ hm
    exact require_eq_ok.mp (hsound _ hm (require succ "") List.mem_cons_self)
  · intro pre k v readV dead succ rest htxn
    have hread : .read k readV ∈ (Mop.i k v readV dead succ).accesses := List.mem_cons_self
    obtain ⟨hfit, hlater⟩ := hmade htxn hread
    exact ⟨hfit, fun kept hm => hlater kept (List.mem_cons_of_mem _ hm)⟩
  · intro pre mop rest k v readV dead succ htxn hr
    have hlater := (hmade htxn (read_of_compared hr)).2 succ
    constructor
    · intro hm
      have hw : .write k v true succ ∈ (Mop.i k v readV dead succ).accesses := by
        simp [Mop.accesses]
      exact hlater (List.mem_append_right _ (List.mem_flatMap.mpr ⟨_, hm, hw⟩))
    · intro hm
      have hw : .write k v true succ ∈ (Mop.d k v readV dead succ).accesses := by
        simp [Mop.accesses]
      rw [← List.flatMap_cons] at hlater
      exact hlater (List.mem_flatMap.mpr ⟨_, hm, hw⟩)
  · intro pre mop rest k v htxn hr _
    exact iff_of_false (hcompared htxn hr) (hmade htxn (read_of_compared hr)).1

end Accepted

/-- `check_INT` treats inserts and deletes as a read and a write in every settled
transaction; and, where its assertions hold, in others only when it rejects the
transaction and its expansion both. -/
theorem checkINT_expand (txn : List (Mop κ ν)) :
    (Settled txn → (Rejects (checkINT txn) ↔ Rejects (checkINT (expand txn)))) ∧
      ((∀ mop ∈ txn, mop.Sound) → (Rejects (checkINT txn) ↔ Rejects (checkINT (expand txn))) →
        Settled txn ∨ Rejects (checkINT txn) ∧ Rejects (checkINT (expand txn))) := by
  rw [rejects_checkINT_iff, rejects_checkINT_iff, compared_expand]
  refine ⟨fun h => h.conflicts_iff, fun hsound hiff => ?_⟩
  by_cases hC : Conflicts Dict.empty (txn.flatMap Mop.compared)
  · exact .inr ⟨hC, hiff.mp hC⟩
  · exact .inl (settled_of_not_conflicts hsound hC (fun hA => hC (hiff.mpr hA)))

/-- An insert, and a read of what it wrote. -/
def insertRead : List (Mop Nat Value) := [.i 1 (.int 8) (.int 5) false true, .r 1 (.int 8) false]

theorem settled_insertRead : Settled insertRead where
  deletes hm := by simp [insertRead] at hm
  inserts {pre k v readV dead succ rest} htxn := by
    rcases pre with _ | ⟨a, _ | ⟨b, _ | ⟨c, pre⟩⟩⟩ <;> simp [insertRead] at htxn
    obtain ⟨⟨rfl, rfl, rfl, rfl, rfl⟩, rfl⟩ := htxn
    simp [lastMade, Misfit, Mop.accesses, Mop.compared]
  later {pre mop rest k v readV dead succ} htxn hr := by
    rcases pre with _ | ⟨a, _ | ⟨b, _ | ⟨c, pre⟩⟩⟩ <;> simp [insertRead] at htxn
    · obtain ⟨rfl, rfl⟩ := htxn
      cases hr
    · obtain ⟨rfl, rfl, rfl⟩ := htxn
      simp
  reads {pre mop rest k v} htxn hr _ := by
    rcases pre with _ | ⟨a, _ | ⟨b, _ | ⟨c, pre⟩⟩⟩ <;> simp [insertRead] at htxn
    · obtain ⟨rfl, rfl⟩ := htxn
      cases hr
    · obtain ⟨rfl, rfl, rfl⟩ := htxn
      simp only [Mop.compared, List.mem_singleton, Access.read.injEq] at hr
      obtain ⟨rfl, rfl⟩ := hr
      simp [lastCompared, lastMade, Misfit, Mop.compared, Mop.accesses, record]

theorem checkINT_expand_insertRead :
    Settled insertRead ∧ (Rejects (checkINT insertRead) ↔ Rejects (checkINT (expand insertRead))) :=
  ⟨settled_insertRead, (checkINT_expand insertRead).1 settled_insertRead⟩

/-- An insert after a read of its key, and a read of what it wrote. -/
def insertTxn : List (Mop Nat Value) :=
  [.r 1 (.int 5) false, .i 1 (.int 8) (.int 5) false true, .r 1 (.int 8) false]

/-- The consistent transaction is rejected, its expansion is not. -/
theorem checkINT_rejects_insert :
    ¬ (Rejects (checkINT insertTxn) ↔ Rejects (checkINT (expand insertTxn))) := by
  have hcode : checkINT insertTxn = .error (.reject "inconsistent read value as last write/read") :=
    rfl
  have hexpand : checkINT (expand insertTxn) = .ok true := rfl
  rw [hcode, hexpand]
  simp [Rejects]

end Settled

end Viper
