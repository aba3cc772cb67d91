import Viper.Append
import Viper.Scripts

/-!
# Facts about a list-append log

What the builder is told by a log, without its indices: who appends what, which
list a transaction reads, whose version that is, and which appends follow one
another. Transactions are numbered by their lines; number 0 and numbers behind
the end of the log stand for transactions without operations.
-/
namespace Viper

open Py Chains

namespace Append

variable {κ ν : Type}

def LogMop.key : LogMop κ ν → κ
  | .append k _ => k
  | .r k _ => k

def opsOf (lines : List (LogTxn κ ν)) : Nat → List (LogMop κ ν)
  | 0 => []
  | i + 1 => (lines[i]?).elim [] LogTxn.value

/-- The session of a transaction. -/
def processOf (lines : List (LogTxn κ ν)) : Nat → Option Nat
  | 0 => none
  | i + 1 => lines[i]?.map LogTxn.process

/-- An external read: the first operation on the key, if that is a read. -/
def externalRead [DecidableEq κ] (ops : List (LogMop κ ν)) (k : κ) : Option (List ν) :=
  match ops.find? (fun m => m.key = k) with
  | some (.r _ v) => some (v.getD [])
  | _ => none

/-- The elements a transaction appends to a key, in order. -/
def appendsTo [DecidableEq κ] (k : κ) (ops : List (LogMop κ ν)) : List ν :=
  ops.filterMap (fun
    | .append k' x => if k' = k then some x else none
    | .r _ _ => none)

theorem mem_appendsTo [DecidableEq κ] (k : κ) (ops : List (LogMop κ ν)) (x : ν) :
    x ∈ appendsTo k ops ↔ .append k x ∈ ops := by
  simp only [appendsTo, List.mem_filterMap]
  constructor
  · rintro ⟨m, hm, hx⟩
    cases m with
    | r k' v => cases hx
    | append k' y =>
      by_cases hk : k' = k
      · simp only [if_pos hk, Option.some.injEq] at hx
        rw [← hk, ← hx]
        exact hm
      · simp [hk] at hx
  · intro h
    exact ⟨_, h, by simp⟩

section Relations

variable (lines : List (LogTxn κ ν))

def Appends (i : Nat) (k : κ) (x : ν) : Prop := .append k x ∈ opsOf lines i

def Writes (k : κ) (i : Nat) : Prop := ∃ x, Appends lines i k x

/-- One transaction appends `x` to `k`, and no other does. -/
def OneAppender (k : κ) (x : ν) : Prop := ∃ a, ∀ i, Appends lines i k x ↔ i = a

variable [DecidableEq κ]

def Reads (j : Nat) (k : κ) (xs : List ν) : Prop := externalRead (opsOf lines j) k = some xs

/-- `j` reads the version of `k` that `i` leaves. -/
def ReadsFrom (k : κ) (i j : Nat) : Prop :=
  ∃ xs x, Reads lines j k xs ∧ xs.getLast? = some x ∧ Appends lines i k x

/-- Neighbours in a list that was read, appended by different transactions. -/
def Observed (k : κ) (a b : Nat) : Prop :=
  ∃ j xs x y, Reads lines j k xs ∧ Linked xs x y ∧ Appends lines a k x ∧ Appends lines b k y ∧ a ≠ b

/-- What the builder takes for the next version. -/
def Successor (k : κ) (a b : Nat) : Prop :=
  (Writes lines k b ∧ ReadsFrom lines k a b) ∨ Observed lines k a b

/-- Every element that was read has one appender. -/
def Sourced : Prop := ∀ j k xs x, Reads lines j k xs → x ∈ xs → OneAppender lines k x

end Relations

theorem lt_of_op {lines : List (LogTxn κ ν)} {i : Nat} {m : LogMop κ ν} (h : m ∈ opsOf lines i) :
    0 < i ∧ i ≤ lines.length := by
  cases i with
  | zero => cases h
  | succ i =>
    refine ⟨Nat.succ_pos i, ?_⟩
    by_contra hlt
    rw [opsOf, List.getElem?_eq_none (by omega)] at h
    cases h

theorem lt_of_reads [DecidableEq κ] {lines : List (LogTxn κ ν)} {j : Nat} {k : κ} {xs : List ν}
    (h : Reads lines j k xs) : 0 < j ∧ j ≤ lines.length := by
  rw [Reads, externalRead] at h
  cases hf : (opsOf lines j).find? (fun m => m.key = k) with
  | none => simp [hf] at h
  | some m => exact lt_of_op (List.mem_of_find?_eq_some hf)

theorem Appends.lt {lines : List (LogTxn κ ν)} {i : Nat} {k : κ} {x : ν} (h : Appends lines i k x) :
    0 < i ∧ i ≤ lines.length := lt_of_op h

theorem Writes.lt {lines : List (LogTxn κ ν)} {k : κ} {i : Nat} (h : Writes lines k i) :
    0 < i ∧ i ≤ lines.length := by
  obtain ⟨x, hx⟩ := h
  exact hx.lt

section Parsed

variable (o : SetOrder) (lines : List (LogTxn κ ν))

theorem length_parse : (parse o lines).1.length = lines.length + 1 := by
  simp [parse]

theorem getElem?_parse (i : Nat) :
    (parse o lines).1[i + 1]? = lines[i]?.map (fun line => parseSingleTxn line (i + 1)) := by
  simp only [parse, List.getElem?_cons_succ, List.getElem?_map, List.getElem?_zipIdx,
    Option.map_map]
  congr 1
  funext line
  simp [Function.comp, Nat.add_comm]

theorem txnAt_parse {i : Nat} {txn : List (Mop κ (ListValue ν))}
    (h : TxnAt (parse o lines).1 i txn) :
    txn = (opsOf lines i).map parseMop := by
  obtain ⟨hi, e, he, hv⟩ := h
  obtain ⟨i, rfl⟩ := Nat.exists_eq_succ_of_ne_zero (Nat.pos_iff_ne_zero.mp hi)
  rw [Nat.succ_eq_add_one, getElem?_parse] at he
  obtain ⟨line, hl, rfl⟩ := Option.map_eq_some_iff.mp he
  simp only [parseSingleTxn, Option.some.injEq] at hv
  simp [opsOf, hl, ← hv]

theorem txnAt_of_op {i : Nat} {m : LogMop κ ν} (h : m ∈ opsOf lines i) :
    TxnAt (parse o lines).1 i ((opsOf lines i).map parseMop) := by
  cases i with
  | zero => cases h
  | succ i =>
    refine ⟨Nat.succ_pos i, ?_⟩
    rw [getElem?_parse]
    cases hl : lines[i]? with
    | none => simp [opsOf, hl] at h
    | some line => exact ⟨_, rfl, by simp [parseSingleTxn, opsOf, hl]⟩

theorem loaded_parse : Loaded (parse o lines).1 := by
  refine ⟨by simp [parse], fun e he => ?_⟩
  have hm := (List.dropLast_sublist _).subset he
  simp only [parse, List.tail_cons, List.mem_map] at hm
  obtain ⟨p, _, rfl⟩ := hm
  rfl

end Parsed

section Sessions

variable (o : SetOrder) (lines : List (LogTxn κ ν))

theorem getD_sessions (l : List (LogTxn κ ν × Nat))
    (d : Dict Nat (List (Entry (Mop κ (ListValue ν))))) (tid : Nat) :
    (l.foldl (fun histories p => histories.set p.1.process
      (histories.getD p.1.process [] ++ [parseSingleTxn p.1 p.2])) d).getD tid [] =
      d.getD tid [] ++ (l.filter (fun p => p.1.process = tid)).map
        (fun p => parseSingleTxn p.1 p.2) := by
  induction l generalizing d with
  | nil => simp
  | cons p l ih =>
    rw [List.foldl_cons, ih]
    by_cases hp : p.1.process = tid
    · simp [hp, Dict.getD]
    · simp [hp, Dict.getD, Dict.get?_set_other _ _ _ _ (Ne.symm hp)]

/-- Consecutive transactions of a parsed session are in log order. -/
theorem consecutive_parse {i j : Nat} (h : Consecutive (parse o lines).2 i j) :
    i < j ∧ ∃ p, processOf lines i = some p ∧ processOf lines j = some p := by
  obtain ⟨txns, ht, ⟨e, e'⟩, hp, rfl, rfl⟩ := h
  obtain ⟨tid, _, rfl⟩ := List.mem_map.mp ht
  rw [getD_sessions] at hp
  simp only [Dict.getD, Dict.get?_empty, Option.getD_none, List.nil_append] at hp
  rw [mem_zip_tail] at hp
  have hproc :
      ∀ e ∈ ((lines.zipIdx 1).filter (fun p => p.1.process = tid)).map
        (fun p => parseSingleTxn p.1 p.2),
      processOf lines e.id = some tid := by
    intro e he
    obtain ⟨⟨line, m⟩, hm, rfl⟩ := List.mem_map.mp he
    obtain ⟨hm, htid⟩ := List.mem_filter.mp hm
    obtain ⟨hpos, hl⟩ := List.mk_mem_zipIdx_iff_le_and_getElem?_sub.mp hm
    obtain ⟨m, rfl⟩ := Nat.exists_eq_succ_of_ne_zero (Nat.pos_iff_ne_zero.mp hpos)
    rw [Nat.succ_eq_add_one, Nat.add_sub_cancel] at hl
    simpa [parseSingleTxn, processOf, hl] using htid
  refine ⟨?_, tid, hproc e hp.mem.1, hproc e' hp.mem.2⟩
  have hsorted : (((lines.zipIdx 1).filter (fun p => p.1.process = tid)).map
      (fun p => parseSingleTxn p.1 p.2)).Pairwise (fun e e' => e.id < e'.id) := by
    rw [List.pairwise_map]
    refine List.Pairwise.filter _ ?_
    have hidx : (List.range' 1 lines.length).Pairwise (· < ·) := List.pairwise_lt_range'
    rw [← List.zipIdx_map_snd 1 lines, List.pairwise_map] at hidx
    exact hidx
  obtain ⟨l₁, l₂, he⟩ := hp
  rw [he, List.pairwise_append] at hsorted
  exact (List.pairwise_cons.mp hsorted.2.1).1 e' List.mem_cons_self

theorem lt_of_process {lines : List (LogTxn κ ν)} {i p : Nat} (h : processOf lines i = some p) :
    0 < i ∧ i ≤ lines.length := by
  cases i with
  | zero => cases h
  | succ i =>
    obtain ⟨line, hl, _⟩ := Option.map_eq_some_iff.mp h
    exact ⟨Nat.succ_pos i, (List.getElem?_eq_some_iff.mp hl).1⟩

end Sessions

section Reading

variable [LinearOrder κ] [DecidableEq ν]

/-- The parsed value of a list. -/
def readValue : List ν → ListValue ν
  | [] => .nil
  | x :: xs => .list (x :: xs)

omit [DecidableEq ν] in
theorem readValue_inj {xs ys : List ν} (h : readValue xs = readValue ys) : xs = ys := by
  cases xs <;> cases ys <;> simp_all [readValue]

omit [LinearOrder κ] [DecidableEq ν] in
theorem parseMop_r (k : κ) (v : Option (List ν)) :
    parseMop (.r k v) = .r k (readValue (v.getD [])) false := by
  rcases v with _ | (_ | ⟨x, xs⟩) <;> rfl

omit [DecidableEq ν] in
theorem externalRead_cons (m : LogMop κ ν) (ops : List (LogMop κ ν)) (k : κ) :
    externalRead (m :: ops) k = if m.key = k then externalRead [m] k else externalRead ops k := by
  by_cases h : m.key = k <;> simp [externalRead, h]

omit [DecidableEq ν] in
/-- `ext_reads_fn` on a parsed transaction. -/
theorem foldlM_extReads (ops : List (LogMop κ ν)) (st : ReadState κ (ListValue ν)) :
    ∃ st', (ops.map parseMop).foldlM extReadsStep st = .ok st' ∧
      ∀ k, st'.map.get? k = if k ∈ st.ignore then st.map.get? k else
        ((externalRead ops k).map readValue).orElse (fun _ => st.map.get? k) := by
  induction ops generalizing st with
  | nil => exact ⟨st, rfl, fun k => by simp [externalRead]⟩
  | cons m ops ih =>
    cases m with
    | append k₀ x =>
      obtain ⟨st', h, hm⟩ := ih { st with ignore := st.ignore.insert k₀ }
      refine ⟨st', by simpa [parseMop, extReadsStep] using h, fun k => ?_⟩
      rw [hm k, externalRead_cons]
      by_cases hk : k = k₀
      · subst hk
        by_cases hi : k ∈ st.ignore <;> simp [hi, LogMop.key, externalRead]
      · simp [LogMop.key, hk, Ne.symm hk]
    | r k₀ v =>
      obtain ⟨st', h, hm⟩ := ih (st.see k₀ (readValue (v.getD [])))
      refine ⟨st', by simpa [parseMop_r, extReadsStep] using h, fun k => ?_⟩
      rw [hm k, externalRead_cons]
      by_cases hi : k₀ ∈ st.ignore
      · by_cases hk : k = k₀
        · subst hk
          simp [ReadState.see, hi]
        · simp [ReadState.see, hi, LogMop.key, Ne.symm hk]
      · by_cases hk : k = k₀
        · subst hk
          simp [ReadState.see, hi, LogMop.key, externalRead]
        · simp [ReadState.see, hi, hk, LogMop.key, Ne.symm hk, Dict.get?_set_other]

omit [DecidableEq ν] in
theorem extReadsFn_parse (ops : List (LogMop κ ν)) : ∃ m, extReadsFn (ops.map parseMop) = .ok m ∧
    ∀ k, m.get? k = (externalRead ops k).map readValue := by
  obtain ⟨st, h, hm⟩ := foldlM_extReads ops ⟨[], Dict.empty⟩
  refine ⟨st.map, by rw [extReadsFn, h, ok_bind], fun k => ?_⟩
  rw [hm k]
  cases externalRead ops k <;> simp

variable (o : SetOrder) (lines : List (LogTxn κ ν))

omit [DecidableEq ν] in
theorem has_extReadsFn (j : Nat) (k : κ) (v : ListValue ν) :
    Has extReadsFn (parse o lines).1 j k v ↔ ∃ xs, Reads lines j k xs ∧ v = readValue xs := by
  obtain ⟨m, hm, hget⟩ := extReadsFn_parse (κ := κ) (opsOf lines j)
  constructor
  · rintro ⟨txn, m', ht, hm', hv⟩
    rw [txnAt_parse o lines ht, hm] at hm'
    cases hm'
    rw [hget k, Option.map_eq_some_iff] at hv
    obtain ⟨xs, hx, rfl⟩ := hv
    exact ⟨xs, hx, rfl⟩
  · rintro ⟨xs, hx, rfl⟩
    have hop : ∃ op, op ∈ opsOf lines j := by
      rw [Reads, externalRead] at hx
      cases hf : (opsOf lines j).find? (fun m => m.key = k) with
      | none => simp [hf] at hx
      | some op => exact ⟨op, List.mem_of_find?_eq_some hf⟩
    obtain ⟨op, hop⟩ := hop
    refine ⟨_, m, txnAt_of_op o lines hop, hm, ?_⟩
    rw [hget k, hx]
    rfl

theorem extReads_parse : ∃ R, extIndex (parse o lines).1 extReadsFn = .ok R ∧
    IndexOf R (fun j k v => ∃ xs, Reads lines j k xs ∧ v = readValue xs) := by
  obtain ⟨R, hR⟩ : ∃ R, extIndex (parse o lines).1 extReadsFn = .ok R :=
    extIndex_total (loaded_parse o lines) (fun i txn ht => by
    obtain ⟨m, hm, _⟩ := extReadsFn_parse (κ := κ) (opsOf lines i)
    exact ⟨m, by rw [txnAt_parse o lines ht, hm]⟩)
  exact ⟨R, hR, (extIndex_spec hR).congr (has_extReadsFn o lines)⟩

theorem foldlM_extWritesMop (i : Nat) (ops : List (LogMop κ ν)) {X : Index κ (ListValue ν)}
    {W : Nat → κ → ListValue ν → Prop} (hX : IndexOf X W) :
    ∃ X', (ops.map parseMop).foldlM (extWritesMop i) X = .ok X' ∧
      IndexOf X' (fun j k v => W j k v ∨ (j = i ∧ ∃ x, v = .elem x ∧ .append k x ∈ ops)) := by
  induction ops generalizing X W with
  | nil => exact ⟨X, rfl, hX.congr (by simp)⟩
  | cons m ops ih =>
    cases m with
    | r k v =>
      obtain ⟨X', h, hX'⟩ := ih hX
      exact ⟨X', by simpa [parseMop_r, extWritesMop] using h, hX'.congr (by simp)⟩
    | append k x =>
      obtain ⟨X', h, hX'⟩ := ih (hX.add i (k, .elem x))
      refine ⟨X', by simpa [parseMop, extWritesMop] using h, hX'.congr (fun j k' v => ?_)⟩
      simp only [Prod.mk.injEq, List.mem_cons, LogMop.append.injEq]
      constructor
      · rintro ((h | ⟨rfl, rfl, rfl⟩) | ⟨rfl, y, rfl, hy⟩)
        · exact .inl h
        · exact .inr ⟨rfl, x, rfl, .inl ⟨rfl, rfl⟩⟩
        · exact .inr ⟨rfl, y, rfl, .inr hy⟩
      · rintro (h | ⟨rfl, y, rfl, ⟨rfl, rfl⟩ | hy⟩)
        · exact .inl (.inl h)
        · exact .inl (.inr ⟨rfl, rfl, rfl⟩)
        · exact .inr ⟨rfl, y, rfl, hy⟩

theorem foldlM_extWrites (m : Nat) (hm : 0 < m) {X : Index κ (ListValue ν)}
    {W : Nat → κ → ListValue ν → Prop} (hX : IndexOf X W) :
    ∃ X', (((lines.zipIdx m).map fun p => parseSingleTxn p.1 p.2).zipIdx m).foldlM
      (fun allWrites p =>
      if p.1.id = 0 then .ok allWrites
      else do
        let txn ← txnOf p.1
        txn.foldlM (extWritesMop p.2) allWrites) X = .ok X' ∧
      IndexOf X' (fun j k v => W j k v ∨
        ∃ line, (line, j) ∈ lines.zipIdx m ∧ ∃ x, v = .elem x ∧ .append k x ∈ line.value) := by
  induction lines generalizing m X W with
  | nil => exact ⟨X, rfl, hX.congr (by simp)⟩
  | cons line lines ih =>
    obtain ⟨X₁, h₁, hX₁⟩ := foldlM_extWritesMop m line.value hX
    obtain ⟨X₂, h₂, hX₂⟩ := ih (m + 1) (Nat.succ_pos m) hX₁
    refine ⟨X₂, ?_, hX₂.congr (fun j k v => ?_)⟩
    · simp only [List.zipIdx_cons, List.map_cons, List.foldlM_cons, parseSingleTxn,
        if_neg (Nat.pos_iff_ne_zero.mp hm), txnOf, ok_bind, h₁]
      exact h₂
    · simp only [List.zipIdx_cons, List.mem_cons, Prod.mk.injEq]
      constructor
      · rintro ((h | ⟨rfl, h⟩) | ⟨l, hl, h⟩)
        · exact .inl h
        · exact .inr ⟨line, .inl ⟨rfl, rfl⟩, h⟩
        · exact .inr ⟨l, .inr hl, h⟩
      · rintro (h | ⟨l, ⟨rfl, rfl⟩ | hl, h⟩)
        · exact .inl (.inl h)
        · exact .inl (.inr ⟨rfl, h⟩)
        · exact .inr ⟨l, hl, h⟩

theorem extWrites_parse : ∃ X, extWritesFn (parse o lines).1 = .ok X ∧
    IndexOf X (fun i k v => ∃ x, v = .elem x ∧ Appends lines i k x) := by
  obtain ⟨X, h, hX⟩ :=
    foldlM_extWrites lines 1 Nat.one_pos (indexOf_empty (κ := κ) (ν := ListValue ν))
  refine ⟨X, ?_, hX.congr (fun i k v => ?_)⟩
  · rw [extWritesFn, parse, List.zipIdx_cons, List.foldlM_cons]
    exact h
  · rw [false_or]
    constructor
    · rintro ⟨line, hl, x, rfl, hx⟩
      obtain ⟨hi, he⟩ := List.mk_mem_zipIdx_iff_le_and_getElem?_sub.mp hl
      obtain ⟨i, rfl⟩ := Nat.exists_eq_succ_of_ne_zero (Nat.pos_iff_ne_zero.mp hi)
      rw [Nat.succ_eq_add_one, Nat.add_sub_cancel] at he
      exact ⟨x, rfl, by simpa [Appends, opsOf, he] using hx⟩
    · rintro ⟨x, rfl, hx⟩
      cases i with
      | zero => cases hx
      | succ i =>
        rw [Appends, opsOf] at hx
        cases hl : lines[i]? with
        | none => simp [hl] at hx
        | some line =>
          refine ⟨line, List.mk_mem_zipIdx_iff_le_and_getElem?_sub.mpr ⟨Nat.succ_pos i, ?_⟩, x,
            rfl, by simpa [hl] using hx⟩
          rw [Nat.add_sub_cancel, hl]

/-- The external reads of a transaction, in order. -/
def externalReads (seen : List κ) : List (LogMop κ ν) → List (κ × List ν)
  | [] => []
  | .append k _ :: ops => externalReads (seen.insert k) ops
  | .r k v :: ops =>
    if seen.contains k then externalReads seen ops
    else (k, v.getD []) :: externalReads (seen.insert k) ops

/-- The lists that are read externally: keys by their first external read, and
for each key its lists by theirs. -/
def listsRead (lines : List (LogTxn κ ν)) : List (κ × List ν) :=
  grouped (lines.flatMap (fun line => externalReads [] line.value))

omit [DecidableEq ν] in
theorem entries_extReads {ops : List (LogMop κ ν)} {st st' : ReadState κ (ListValue ν)}
    (hst : ∀ k ∈ st.map.keys, k ∈ st.ignore)
    (h : (ops.map parseMop).foldlM extReadsStep st = .ok st') :
    st'.map.entries = st.map.entries ++
      (externalReads st.ignore ops).map (fun p => (p.1, readValue p.2)) := by
  induction ops generalizing st with
  | nil =>
    cases h
    simp [externalReads]
  | cons m ops ih =>
    cases m with
    | append k x =>
      have hst' : ∀ k' ∈ st.map.keys, k' ∈ st.ignore.insert k :=
        fun k' hk => List.mem_insert_of_mem (hst k' hk)
      have h' : (ops.map parseMop).foldlM extReadsStep ⟨st.ignore.insert k, st.map⟩ = .ok st' := by
        simpa [parseMop, extReadsStep] using h
      exact ih hst' h'
    | r k v =>
      have h' : (ops.map parseMop).foldlM extReadsStep (st.see k (readValue (v.getD []))) =
          .ok st' := by
        simpa [parseMop_r, extReadsStep] using h
      rw [ReadState.see] at h'
      by_cases hk : k ∈ st.ignore
      · rw [if_pos hk] at h'
        rw [externalReads, if_pos (List.contains_iff_mem.mpr hk)]
        exact ih hst h'
      · rw [if_neg hk] at h'
        have hnew : k ∉ st.map.keys := fun hm => hk (hst k hm)
        have hset : (st.map.set k (readValue (v.getD []))).entries = st.map.entries ++
          [(k, readValue (v.getD []))] :=
          setEntry_of_notMem _ hnew
        have hseen : ¬ st.ignore.contains k = true := fun hm => hk (List.contains_iff_mem.mp hm)
        rw [ih (fun k' hk' => ?_) h', externalReads, if_neg hseen, hset, List.map_cons,
          List.append_assoc, List.singleton_append]
        rw [Dict.keys_set, if_neg hnew, List.mem_append, List.mem_singleton] at hk'
        rcases hk' with hk' | rfl
        · exact List.mem_insert_of_mem (hst k' hk')
        · exact List.mem_insert_self

omit [LinearOrder κ] [DecidableEq ν] in
theorem flatMap_txns {α : Type} (f : List (Mop κ (ListValue ν)) → List α) (o : SetOrder)
    (lines : List (LogTxn κ ν)) :
    (txns (parse o lines).1).flatMap (fun p => f p.1) =
      lines.flatMap (fun line => f (line.value.map parseMop)) := by
  have hall : ∀ (lines : List (LogTxn κ ν)) (m n : Nat),
      ((((lines.zipIdx m).map (fun p => parseSingleTxn p.1 p.2)).zipIdx n).filterMap
        (fun p => p.1.value.map (fun txn => (txn, p.2)))).flatMap (fun p => f p.1) =
        lines.flatMap (fun line => f (line.value.map parseMop)) := by
    intro lines
    induction lines with
    | nil => intros; rfl
    | cons line lines ih =>
      intro m n
      simp only [List.zipIdx_cons, List.map_cons, List.filterMap_cons, parseSingleTxn,
        Option.map_some, List.flatMap_cons]
      exact congrArg _ (ih (m + 1) (n + 1))
  exact hall lines 1 1

/-- The loop over the reads goes through the lists in this order. -/
theorem visits_extReads {o : SetOrder} {lines : List (LogTxn κ ν)} {R : Index κ (ListValue ν)}
    (hR : extIndex (parse o lines).1 extReadsFn = .ok R) :
    R.Visits ((lines.flatMap (fun line => externalReads [] line.value)).map
      (fun p => (p.1, readValue p.2))) := by
  let f : List (Mop κ (ListValue ν)) → List (κ × ListValue ν) := fun txn =>
    match extReadsFn txn with
    | .ok m => m.entries
    | .error _ => []
  have hf : ∀ ops : List (LogMop κ ν),
      f (ops.map parseMop) = (externalReads [] ops).map (fun p => (p.1, readValue p.2)) := by
    intro ops
    obtain ⟨st, hst, _⟩ := foldlM_extReads ops ⟨[], Dict.empty⟩
    have hm : extReadsFn (ops.map parseMop) = .ok st.map := by rw [extReadsFn, hst, ok_bind]
    simp only [f, hm]
    simpa [Dict.empty, Dict.keys] using entries_extReads (by simp [Dict.empty, Dict.keys]) hst
  have hv := visits_extIndex (f := f) (fun txn m hm => by simp only [f, hm]) hR
  simpa only [flatMap_txns, hf, ← List.map_flatMap] using hv

theorem flatMap_extReads {α : Type} {o : SetOrder} {lines : List (LogTxn κ ν)}
    {R : Index κ (ListValue ν)}
    (hR : extIndex (parse o lines).1 extReadsFn = .ok R) (f : κ → ListValue ν × List Nat → List α) :
    R.entries.flatMap (fun p => p.2.entries.flatMap (f p.1)) =
      (listsRead lines).flatMap (fun p => f p.1 (readValue p.2, getIn R p.1 (readValue p.2))) := by
  have hinj : Function.Injective (readValue (ν := ν)) := fun _ _ he => readValue_inj he
  rw [(visits_extReads hR).flatMap_entries [], grouped_map hinj, List.flatMap_map, listsRead]
  rfl

end Reading

end Append

end Viper
