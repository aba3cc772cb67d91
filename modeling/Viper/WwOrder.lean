import Viper.Z3Checkers

/-!
# The write order of the Adya-SI checker (`--ww_order`)

With `ext_writes` the Adya-SI checker adds one constraint for every two writers
of a key. It names the two by their positions in the list of writers, so that the
constraint falls on the first transactions of the history.
-/
namespace Viper

open Py

namespace Z301Checker

/-- The constraints on the writers of one key, by list positions. -/
def WwOrder (writes : List Nat) (m : AdyaModel) : Prop :=
  ∀ q ∈ pairsOf (List.range writes.length), Xor (m.WRWW q.1 q.2) (m.WRWW q.2 q.1)

/-- The constraints meant: one order or the other for every two writers. -/
def WritersOrdered (writes : List Nat) (m : AdyaModel) : Prop :=
  ∀ q ∈ pairsOf writes, Xor (m.WRWW q.1 q.2) (m.WRWW q.2 q.1)

theorem sat_some_iff {κ : Type} {n : Nat} {E : List Edge} {P : List (Edge × Edge)}
    (d : Dict κ (List Nat)) :
    Sat (check n E P (some d)) ↔
      ∃ m, (∀ f ∈ check n E P (none : Option (Dict κ (List Nat))), f m) ∧
      ∀ p ∈ d.entries, WwOrder p.2 m := by
  refine exists_congr fun m => ?_
  simp only [check, List.append_nil, List.mem_append, List.mem_flatMap, List.mem_map]
  constructor
  · intro h
    refine ⟨fun f hf => h f (.inl hf), fun p hp q hq => ?_⟩
    exact h _ (.inr ⟨p, hp, q, hq, rfl⟩)
  · intro h f hf
    rcases hf with hf | ⟨p, hp, q, hq, rfl⟩
    · exact h.1 f hf
    · exact h.2 p hp q hq

/-- A key with two writers puts the initial transaction, which never writes, into
an order with another one. -/
theorem wwOrder_misses {writes : List Nat} (hpos : ∀ i ∈ writes, i ≠ 0) (hnd : writes.Nodup)
    (hlen : 2 ≤ writes.length) :
    ¬ ∀ m, WwOrder writes m ↔ WritersOrdered writes m := by
  intro h
  -- all transactions but the initial one, in the order of their numbers
  let m : AdyaModel := ⟨fun _ => 0, fun _ => 0, fun u v => 0 < u ∧ u < v, fun _ _ => False⟩
  have hwriters : WritersOrdered writes m := by
    intro q hq
    obtain ⟨h₁, h₂, hne⟩ := (mem_pairsOf hnd).mp (.inl hq)
    have hp₁ := hpos _ h₁
    have hp₂ := hpos _ h₂
    simp only [m, Xor]
    omega
  have hzero : (0, 1) ∈ pairsOf (List.range writes.length) := by
    obtain ⟨k, hk⟩ := Nat.exists_eq_add_of_le' hlen
    rw [hk, List.range_succ_eq_map, List.range_succ_eq_map]
    simp [pairsOf]
  rcases (h m).mpr hwriters (0, 1) hzero with ⟨h₁, _⟩ | ⟨h₁, _⟩
  · exact lt_irrefl _ h₁.1
  · exact absurd h₁.2 (by decide)

theorem wwOrder_of_length {writes : List Nat} (hlen : writes.length ≤ 1) (m : AdyaModel) :
    WwOrder writes m ∧ WritersOrdered writes m := by
  cases writes with
  | nil => simp [WwOrder, WritersOrdered, pairsOf]
  | cons i l =>
    obtain rfl : l = [] := List.length_eq_zero_iff.mp (by simpa using hlen)
    simp [WwOrder, WritersOrdered, pairsOf, List.range_succ]

end Z301Checker

section Agreement

variable {κ : Type} [LinearOrder κ] [ToString κ]

/-- The write order leaves the verdict of algorithm 1 alone and orders the
writers of each key, exactly when no key has two external writers. -/
theorem wwOrder_agrees_iff (o : SetOrder) (H : List (Entry (Mop κ Value)))
    (histories : List (List (Entry (Mop κ Value))))
    (strongSession hasFinal : Bool) (G : ArgumentedPolyGraph κ)
    (hG : AdyaSI.constructGraphFromLog o H histories strongSession hasFinal = .ok G) :
    ((Sat (Z301Checker.check G.nNodes (G.edgeList o) (o.iter G.edgePairs) (some G.extKey2writes)) ↔
          Sat (Z301Checker.check G.nNodes (G.edgeList o) (o.iter G.edgePairs)
            (none : Option (Dict κ (List Nat))))) ∧
        ∀ p ∈ G.extKey2writes.entries, ∀ m, Z301Checker.WwOrder p.2 m ↔
        Z301Checker.WritersOrdered p.2 m) ↔
      ∀ k i j v v', Has extWritesFn H i k v → Has extWritesFn H j k v' → i = j := by
  obtain ⟨t, ht, hb⟩ := AdyaSI.built_of_ok hG
  constructor
  · rintro ⟨_, horder⟩ k i j v v' hi hj
    by_contra hne
    obtain ⟨l, hl⟩ := hb.writers.cover hi
    have hmi := (hb.writers.mem hl i).mpr ⟨v, hi⟩
    have hmj := (hb.writers.mem hl j).mpr ⟨v', hj⟩
    refine Z301Checker.wwOrder_misses (fun x hx => ?_) (hb.writers.nodup hl) ?_
      (horder (k, l) ((G.extKey2writes.mem_entries k l).mpr hl))
    · obtain ⟨u, hu⟩ := (hb.writers.mem hl x).mp hx
      exact Nat.pos_iff_ne_zero.mp hu.lt.1
    · match l, hmi, hmj with
      | [x], hmi, hmj =>
        exact absurd ((List.mem_singleton.mp hmi).trans (List.mem_singleton.mp hmj).symm) hne
      | _ :: _ :: _, _, _ => simp
  · intro h
    have hlen : ∀ p ∈ G.extKey2writes.entries, p.2.length ≤ 1 := by
      intro p hp
      have hl := (G.extKey2writes.mem_entries p.1 p.2).mp hp
      have hnd := hb.writers.nodup hl
      match hw : p.2 with
      | [] => simp
      | [i] => simp
      | i :: j :: l =>
        obtain ⟨v, hi⟩ := (hb.writers.mem hl i).mp (by simp [hw])
        obtain ⟨v', hj⟩ := (hb.writers.mem hl j).mp (by simp [hw])
        rw [hw, h p.1 i j v v' hi hj] at hnd
        simp at hnd
    refine ⟨?_, fun p hp m => ?_⟩
    · rw [Z301Checker.sat_some_iff]
      refine exists_congr fun m => ⟨fun hm => hm.1, fun hm => ⟨hm, fun p hp => ?_⟩⟩
      exact (Z301Checker.wwOrder_of_length (hlen p hp) m).1
    · have hboth := Z301Checker.wwOrder_of_length (hlen p hp) m
      exact iff_of_true hboth.1 hboth.2

/-- Transaction 2 reads a key before 1 writes it, 3 reads another key before 2
writes it, and 3 reads what 1 wrote. Four more transactions write a third key. -/
def reversedReads : List (Entry (Mop Nat Value)) :=
  [⟨0, none⟩, ⟨1, some [.w 7 (.int 1) true]⟩, ⟨2, some [.r 7 (.int 0) false, .w 8 (.int 2) true]⟩,
    ⟨3, some [.r 7 (.int 1) false, .r 8 (.int 0) false]⟩, ⟨4, some [.w 9 (.int 4) true]⟩,
    ⟨5, some [.w 9 (.int 5) true]⟩, ⟨6, some [.w 9 (.int 6) true]⟩, ⟨7, some [.w 9 (.int 7) true]⟩]

def reversedGraph : ArgumentedPolyGraph Nat :=
  ((AdyaSI.constructGraphFromLog .stored reversedReads [] false false).toOption).getD (.init 0)

theorem reversedGraph_built : AdyaSI.constructGraphFromLog .stored reversedReads
    [] false false = .ok reversedGraph := rfl

theorem wwOrder_agrees_iff_reversed :
    AdyaSI.constructGraphFromLog .stored reversedReads [] false false = .ok reversedGraph ∧
      (((Sat (Z301Checker.check reversedGraph.nNodes (reversedGraph.edgeList .stored)
              (SetOrder.stored.iter reversedGraph.edgePairs) (some reversedGraph.extKey2writes)) ↔
            Sat (Z301Checker.check reversedGraph.nNodes (reversedGraph.edgeList .stored)
              (SetOrder.stored.iter reversedGraph.edgePairs)
                (none : Option (Dict Nat (List Nat))))) ∧
          ∀ p ∈ reversedGraph.extKey2writes.entries, ∀ m,
            Z301Checker.WwOrder p.2 m ↔ Z301Checker.WritersOrdered p.2 m) ↔
        ∀ k i j v v', Has extWritesFn reversedReads i k v →
        Has extWritesFn reversedReads j k v' → i = j) :=
  ⟨reversedGraph_built, wwOrder_agrees_iff .stored reversedReads
    [] false false reversedGraph reversedGraph_built⟩

/-- Transaction 2 begins before 1 and commits after 3 begins. -/
def reversedTime : Event → Int
  | .s i => if i = 2 then 2 else if i = 3 then 6 else 4 * i
  | .c i => if i = 2 then 8 else if i = 3 then 9 else 4 * i + 1

/-- Algorithm 1 accepts the history, with the write order it does not. -/
theorem reversedGraph_disagrees :
    AdyaSI.constructGraphFromLog .stored reversedReads [] false false = .ok reversedGraph ∧
      Sat (Z301Checker.check reversedGraph.nNodes (reversedGraph.edgeList .stored)
        (SetOrder.stored.iter reversedGraph.edgePairs) (none : Option (Dict Nat (List Nat)))) ∧
      ¬ Sat (Z301Checker.check reversedGraph.nNodes (reversedGraph.edgeList .stored)
        (SetOrder.stored.iter reversedGraph.edgePairs) (some reversedGraph.extKey2writes)) := by
  obtain ⟨t, ht, hb⟩ := AdyaSI.built_of_ok reversedGraph_built
  refine ⟨reversedGraph_built, ?_, ?_⟩
  · obtain ⟨_, h⟩ :=
      exists_order_of_times (n := reversedGraph.nNodes) (E := reversedGraph.edgeList .stored)
      (P := SetOrder.stored.iter reversedGraph.edgePairs) reversedTime (by decide)
        (by decide) (by decide)
    exact Z301Checker.sat_of_order (hb.paired ht) h
  · rw [Z301Checker.sat_some_iff]
    rintro ⟨m, hm, hw⟩
    have h := Z301Checker.forall_check_iff.mp hm
    have h13 : m.WRWW 1 3 := (h.known ⟨1, 3, .wr⟩ (by decide)).1
    have h21 : m.RW 2 1 := (h.known ⟨2, 1, .rw⟩ (by decide)).1
    have h32 : m.RW 3 2 := (h.known ⟨3, 2, .rw⟩ (by decide)).1
    have horder := hw (9, [4, 5, 6, 7]) (by decide)
    -- the write order of key 9 is taken for one of transactions 0 to 3
    have h12 : m.WRWW 2 1 := by
      rcases horder (1, 2) (by decide) with ⟨hr, _⟩ | ⟨hr, _⟩
      · exact absurd ⟨hr, h21⟩ (h.short (1, 2) (by decide))
      · exact hr
    have h23 : m.WRWW 3 2 := by
      rcases horder (2, 3) (by decide) with ⟨hr, _⟩ | ⟨hr, _⟩
      · exact absurd ⟨hr, h32⟩ (h.short (2, 3) (by decide))
      · exact hr
    exact h.irrefl 1 (by decide) (h.trans 1 3 1 ⟨h13, h.trans 3 2 1 ⟨h23, h12⟩⟩)

end Agreement

end Viper
