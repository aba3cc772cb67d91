import Viper.AppendLog

/-!
# The sessions of an append log

`parse` of `parse/append_parse.py` deals the transactions of a log out to their
processes. Nothing is lost or doubled, whatever order the set of processes is
listed in, and session order is log order within a process.
-/
namespace Viper

open Py Chains

namespace Append

variable {κ ν : Type} (o : SetOrder) (lines : List (LogTxn κ ν))

/-- The numbered lines of a process. -/
def linesOf (tid : Nat) : List (LogTxn κ ν × Nat) :=
  (lines.zipIdx 1).filter (fun p => p.1.process = tid)

/-- The set of processes that the loop of `parse` collects. -/
def processes : List Nat := lines.foldl (fun tids line => tids.insert line.process) []

theorem sessions_eq : (parse o lines).2 =
    (o.iter (processes lines)).map
      (fun tid => (linesOf lines tid).map (fun p => parseSingleTxn p.1 p.2)) := by
  apply List.map_congr_left
  intro tid _
  rw [getD_sessions]
  simp [Dict.getD, linesOf]

theorem foldl_processes (tids : List Nat) (hn : tids.Nodup) :
    (lines.foldl (fun tids line => tids.insert line.process) tids).Nodup ∧
      ∀ tid, tid ∈ lines.foldl (fun tids line => tids.insert line.process) tids ↔
        tid ∈ tids ∨ ∃ line ∈ lines, line.process = tid := by
  induction lines generalizing tids with
  | nil => exact ⟨hn, by simp⟩
  | cons line lines ih =>
    obtain ⟨hnodup, hmem⟩ := ih (tids.insert line.process) (hn.insert)
    refine ⟨hnodup, ?_⟩
    intro tid
    rw [List.foldl_cons, hmem tid, List.mem_insert_iff, List.exists_mem_cons_iff,
      eq_comm (a := tid)]
    tauto

theorem nodup_processes : (processes lines).Nodup := (foldl_processes lines [] List.nodup_nil).1

theorem mem_processes (tid : Nat) : tid ∈ processes lines ↔ ∃ line ∈ lines, line.process = tid := by
  rw [processes, (foldl_processes lines [] List.nodup_nil).2]
  simp

theorem mem_linesOf (tid i : Nat) :
    i ∈ (linesOf lines tid).map Prod.snd ↔ processOf lines i = some tid := by
  simp only [linesOf, List.mem_map, List.mem_filter, decide_eq_true_eq, Prod.exists,
    exists_eq_right, List.mk_mem_zipIdx_iff_le_and_getElem?_sub]
  cases i with
  | zero => simp [processOf]
  | succ i => simp [processOf]

/-- A session lists its transactions in log order. -/
theorem increasing_linesOf (tid : Nat) : ((linesOf lines tid).map Prod.snd).Pairwise (· < ·) := by
  rw [List.pairwise_map]
  apply List.Pairwise.filter
  have hidx : (List.range' 1 lines.length).Pairwise (· < ·) := List.pairwise_lt_range'
  rw [← List.zipIdx_map_snd 1 lines, List.pairwise_map] at hidx
  exact hidx

theorem consecutive_iff_linked (i j : Nat) :
    Consecutive (parse o lines).2 i j ↔ ∃ tid, Linked ((linesOf lines tid).map Prod.snd) i j := by
  have hids : ∀ L : List (Entry (Mop κ (ListValue ν))),
      (∃ p ∈ L.zip L.tail, p.1.id = i ∧ p.2.id = j) ↔
      Linked (L.map Entry.id) i j := by
    intro L
    rw [← mem_zip_tail, ← List.map_tail, List.zip_map, List.mem_map]
    simp only [Prod.map, Prod.mk.injEq]
  have hzip : ∀ tid, (∃ p ∈ ((linesOf lines tid).map (fun p => parseSingleTxn p.1 p.2)).zip
      ((linesOf lines tid).map (fun p => parseSingleTxn p.1 p.2)).tail, p.1.id = i ∧ p.2.id = j) ↔
        Linked ((linesOf lines tid).map Prod.snd) i j := by
    intro tid
    rw [hids, List.map_map]
    rfl
  rw [sessions_eq]
  simp only [Consecutive, List.mem_map, exists_exists_and_eq_and]
  constructor
  · intro h
    obtain ⟨tid, _, h⟩ := h
    exact ⟨tid, (hzip tid).mp h⟩
  · intro h
    obtain ⟨tid, h⟩ := h
    have hi : processOf lines i = some tid := (mem_linesOf lines tid i).mp h.mem.1
    refine ⟨tid, ?_, (hzip tid).mpr h⟩
    rw [SetOrder.mem_iter, mem_processes]
    cases i with
    | zero => cases hi
    | succ i =>
      obtain ⟨line, hl, ht⟩ := Option.map_eq_some_iff.mp hi
      exact ⟨line, List.mem_of_getElem? hl, ht⟩

/-- Session order is log order within a process. -/
theorem transGen_consecutive_iff (i j : Nat) :
    Relation.TransGen (Consecutive (parse o lines).2) i j ↔
    i < j ∧ ∃ tid, processOf lines i = some tid ∧ processOf lines j = some tid := by
  constructor
  · intro h
    induction h with
    | single h => exact consecutive_parse o lines h
    | tail _ h ih =>
      obtain ⟨hij, tid, hi, hj⟩ := ih
      obtain ⟨hjl, tid', hj', hl⟩ := consecutive_parse o lines h
      obtain rfl : tid = tid' := Option.some.inj (hj.symm.trans hj')
      exact ⟨hij.trans hjl, tid, hi, hl⟩
  · intro h
    obtain ⟨hij, tid, hi, hj⟩ := h
    have hpath :=
      linked_path_of_lt (increasing_linesOf lines tid) ((mem_linesOf lines tid i).mpr hi)
      ((mem_linesOf lines tid j).mpr hj) hij
    exact Relation.TransGen.mono
      (fun a b hab => (consecutive_iff_linked o lines a b).mpr ⟨tid, hab⟩) i j hpath

/-- The sessions of a log hold every transaction of the full history but the first
exactly once, none is empty, and two transactions follow each other in a session
when no other transaction of their process is between them in the log. -/
theorem parse_partitions : (parse o lines).2.flatten.Perm (parse o lines).1.tail ∧
    (∀ txns ∈ (parse o lines).2, txns ≠ []) ∧
    ∀ i j, Consecutive (parse o lines).2 i j ↔ i < j ∧ ∃ tid, processOf lines i = some tid ∧
      processOf lines j = some tid ∧ ∀ x, i < x → x < j → processOf lines x ≠ some tid := by
  refine ⟨?_, ?_, ?_⟩
  · have hall : (lines.zipIdx 1).filter (fun p => decide (p.1.process ∈ processes lines)) =
        lines.zipIdx 1 := by
      rw [List.filter_eq_self]
      intro p hp
      exact decide_eq_true ((mem_processes lines _).mpr ⟨p.1, List.fst_mem_of_mem_zipIdx hp, rfl⟩)
    have hdealt := flatMap_filter_perm (fun p : LogTxn κ ν × Nat => p.1.process) (lines.zipIdx 1)
      (processes lines) (nodup_processes lines)
    rw [hall] at hdealt
    rw [sessions_eq, ← List.flatMap_def]
    apply ((o.perm (processes lines)).flatMap_right _).trans
    have hmap := hdealt.map (fun p => parseSingleTxn p.1 p.2)
    rw [List.map_flatMap] at hmap
    exact hmap
  · intro txns ht hnil
    rw [sessions_eq, List.mem_map] at ht
    obtain ⟨tid, ht, rfl⟩ := ht
    obtain ⟨line, hl, hline⟩ := (mem_processes lines tid).mp ((o.mem_iter _ _).mp ht)
    obtain ⟨i, hi⟩ := List.getElem?_of_mem hl
    have hmem : i + 1 ∈ (linesOf lines tid).map Prod.snd := by
      rw [mem_linesOf]
      simp [processOf, hi, hline]
    rw [List.map_eq_nil_iff] at hnil
    rw [hnil] at hmem
    cases hmem
  · intro i j
    rw [consecutive_iff_linked]
    have hlink : ∀ tid, Linked ((linesOf lines tid).map Prod.snd) i j ↔
        processOf lines i = some tid ∧
        processOf lines j = some tid ∧ i < j ∧
        ∀ x, processOf lines x = some tid → ¬ (i < x ∧ x < j) := by
      intro tid
      simp only [linked_iff_of_increasing (increasing_linesOf lines tid), mem_linesOf]
    simp only [hlink]
    constructor
    · intro h
      obtain ⟨tid, hi, hj, hij, hno⟩ := h
      exact ⟨hij, tid, hi, hj, fun x hix hxj hx => hno x hx ⟨hix, hxj⟩⟩
    · intro h
      obtain ⟨hij, tid, hi, hj, hno⟩ := h
      exact ⟨tid, hi, hj, hij, fun x hx hlt => hno x hlt.1 hlt.2 hx⟩

end Append

end Viper
