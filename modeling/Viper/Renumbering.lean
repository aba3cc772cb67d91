import Viper.RegisterDecision
import Viper.Lib.Numbering

/-!
# Histories that differ in the numbers of their transactions

The number of a transaction is its place in the listing of the logs. A history
is accounted for under one numbering exactly if it is under another, as long as
the limit of own upserts does not look at the numbers.
-/
namespace Viper

open Py

section Renumbered

variable {κ : Type} {π : Equiv.Perm Nat} {H H' : List (Entry (Mop κ Value))}
  {histories histories' : List (List (Entry (Mop κ Value)))}

/-- Transaction `i` of one history is transaction `π i` of the other one. -/
structure Renumbers (π : Equiv.Perm Nat) (H H' : List (Entry (Mop κ Value)))
    (histories histories' : List (List (Entry (Mop κ Value)))) : Prop where
  first : π 0 = 0
  lt : ∀ i, π i < H'.length ↔ i < H.length
  txn : ∀ i txn, TxnAt H' (π i) txn ↔ TxnAt H i txn
  consecutive : ∀ i j, Consecutive histories' (π i) (π j) ↔ Consecutive histories i j

theorem Renumbers.symm (h : Renumbers π H H' histories histories') :
    Renumbers π.symm H' H histories' histories where
  first := by
    have hback := π.symm_apply_apply 0
    rwa [h.first] at hback
  lt i := by
    have hi := h.lt (π.symm i)
    rw [π.apply_symm_apply] at hi
    exact hi.symm
  txn i txn := by
    have hi := h.txn (π.symm i) txn
    rw [π.apply_symm_apply] at hi
    exact hi.symm
  consecutive i j := by
    have hij := h.consecutive (π.symm i) (π.symm j)
    rw [π.apply_symm_apply, π.apply_symm_apply] at hij
    exact hij.symm

variable (h : Renumbers π H H' histories histories')
include h

theorem Renumbers.upsertAt (i p : Nat) (k : κ) : UpsertAt H' (π i) p k ↔ UpsertAt H i p k := by
  simp only [UpsertAt, h.txn]

theorem Renumbers.writtenAt (i j : Nat) (k : κ) (v : Value) :
    WrittenAt H' (π i) j k v ↔ WrittenAt H i j k v := by
  simp only [WrittenAt, h.txn]

theorem Renumbers.uniqueWrites (hu : UniqueWrites H) : UniqueWrites H' := by
  intro i j i' j' k v hi hi'
  obtain ⟨i, rfl⟩ := π.surjective i
  obtain ⟨i', rfl⟩ := π.surjective i'
  obtain ⟨he, hj⟩ := hu i j i' j' k v ((h.writtenAt i j k v).mp hi) ((h.writtenAt i' j' k v).mp hi')
  exact ⟨congrArg π he, hj⟩

variable [LinearOrder κ]

theorem Renumbers.has {extFn : List (Mop κ Value) → Except Err (Dict κ Value)} (i : Nat) (k : κ)
    (v : Value) :
    Has extFn H' (π i) k v ↔ Has extFn H i k v := by
  simp only [Has, h.txn]

theorem Renumbers.unwritten {extFn : List (Mop κ Value) → Except Err (Dict κ Value)} {k : κ}
    {v : Value} :
    (∀ i, ¬ Has extFn H' i k v) ↔ ∀ i, ¬ Has extFn H i k v := by
  constructor
  · intro hno i hi
    exact hno (π i) ((h.has i k v).mpr hi)
  · intro hno i hi
    obtain ⟨i, rfl⟩ := π.surjective i
    exact hno i ((h.has i k v).mp hi)

theorem Renumbers.omits (q m : Nat) (k : κ) : Omits H' (π q) m k ↔ Omits H q m k := by
  simp only [Omits, RangeAt, h.txn]

omit h in
/-- An event under the numbers of the other history. -/
def Event.renumber (f : Nat → Nat) : Event → Event
  | .s i => .s (f i)
  | .c i => .c (f i)

omit h in
theorem Event.renumber_injective (π : Equiv.Perm Nat) : Function.Injective (Event.renumber π) := by
  intro a b hab
  cases a with
  | s i =>
    cases b with
    | s j => exact congrArg Event.s (π.injective (Event.s.inj hab))
    | c j => cases hab
  | c i =>
    cases b with
    | s j => cases hab
    | c j => exact congrArg Event.c (π.injective (Event.c.inj hab))

omit h in
theorem Event.renumber_symm (π : Equiv.Perm Nat) (a : Event) :
    (a.renumber π).renumber π.symm = a := by
  cases a with
  | s i => exact congrArg Event.s (π.symm_apply_apply i)
  | c i => exact congrArg Event.c (π.symm_apply_apply i)

omit h in
/-- The events in their order, under the other numbers. -/
theorem Event.exists_order_along (π : Equiv.Perm Nat) [lo : LinearOrder Event] :
    ∃ along : LinearOrder Event, (∀ a b, along.lt (a.renumber π) (b.renumber π) ↔ lo.lt a b) ∧
      ∀ a b, along.le (a.renumber π) (b.renumber π) ↔ lo.le a b := by
  refine ⟨LinearOrder.lift' _ (Event.renumber_injective π.symm), ?_, ?_⟩
  · intro a b
    show lo.lt ((a.renumber π).renumber π.symm) ((b.renumber π).renumber π.symm) ↔ lo.lt a b
    rw [Event.renumber_symm, Event.renumber_symm]
  · intro a b
    show lo.le ((a.renumber π).renumber π.symm) ((b.renumber π).renumber π.symm) ↔ lo.le a b
    rw [Event.renumber_symm, Event.renumber_symm]

/-- The order of the events goes along with the numbers. -/
theorem Renumbers.constrained [LinearOrder Event] {strongSession : Bool}
    {initial : Option (Dict κ Value)} (hc : Constrained H histories strongSession initial) :
    ∃ _ : LinearOrder Event, Constrained H' histories' strongSession initial := by
  obtain ⟨hbegins, hfirst, hreads, hinitial, hranges, hapart, hsessions⟩ := hc
  obtain ⟨along, hlt, hle⟩ := Event.exists_order_along π
  refine ⟨along, ?_⟩
  constructor
  case begins =>
    intro i hi
    obtain ⟨i, rfl⟩ := π.surjective i
    exact (hlt (.s i) (.c i)).mpr (hbegins i ((h.lt i).mp hi))
  case first =>
    intro i h0 hi
    obtain ⟨i, rfl⟩ := π.surjective i
    rw [← h.first] at h0 ⊢
    have hne : i ≠ 0 := fun he => Nat.lt_irrefl _ (he ▸ h0)
    exact (hlt (.c 0) (.s i)).mpr (hfirst i (Nat.pos_of_ne_zero hne) ((h.lt i).mp hi))
  case reads =>
    intro i j k v hr hw
    obtain ⟨i, rfl⟩ := π.surjective i
    obtain ⟨j, rfl⟩ := π.surjective j
    obtain ⟨hij, hlast⟩ := hreads i j k v ((h.has j k v).mp hr) ((h.has i k v).mp hw)
    refine ⟨(hlt (.c i) (.s j)).mpr hij, ?_⟩
    intro x v' hx hxj
    obtain ⟨x, rfl⟩ := π.surjective x
    exact (hle (.c x) (.c i)).mpr (hlast x v' ((h.has x k v').mp hx) ((hlt (.c x) (.s j)).mp hxj))
  case initialReads =>
    intro j k v hr hno hf x v' hx hxj
    obtain ⟨j, rfl⟩ := π.surjective j
    obtain ⟨x, rfl⟩ := π.surjective x
    exact hinitial j k v ((h.has j k v).mp hr) (h.unwritten.mp hno) hf x v' ((h.has x k v').mp hx)
      ((hlt (.c x) (.s j)).mp hxj)
  case ranges =>
    intro q m k hom i p hu hne hiq
    obtain ⟨q, rfl⟩ := π.surjective q
    obtain ⟨i, rfl⟩ := π.surjective i
    exact hranges q m k ((h.omits q m k).mp hom) i p ((h.upsertAt i p k).mp hu)
      (fun he => hne (congrArg π he)) ((hlt (.c i) (.s q)).mp hiq)
  case apart =>
    intro i j k v v' hi hj hne
    obtain ⟨i, rfl⟩ := π.surjective i
    obtain ⟨j, rfl⟩ := π.surjective j
    exact (hapart i j k v v' ((h.has i k v).mp hi) ((h.has j k v').mp hj)
      fun he => hne (congrArg π he)).imp
      (hlt (.c i) (.s j)).mpr (hlt (.c j) (.s i)).mpr
  case sessions =>
    intro hss i j hij
    obtain ⟨i, rfl⟩ := π.surjective i
    obtain ⟨j, rfl⟩ := π.surjective j
    exact (hlt (.c i) (.s j)).mpr (hsessions hss i j ((h.consecutive i j).mp hij))

variable {strongSession : Bool} {initial : Option (Dict κ Value)} {limit limit' : Nat × Nat → Nat}

theorem Renumbers.accounted
    (hlimit : ∀ q m k p, Omits H q m k → UpsertAt H q p k → p ≤ limit' (π q, m) → p ≤ limit (q, m))
    (ha : Accounted H histories strongSession initial limit) :
    Accounted H' histories' strongSession initial limit' where
  sources := by
    intro j k v hr hno
    obtain ⟨j, rfl⟩ := π.surjective j
    exact ha.sources j k v ((h.has j k v).mp hr) (h.unwritten.mp hno)
  ownUpserts := by
    intro q m k hom p hp hu
    obtain ⟨q, rfl⟩ := π.surjective q
    have hom' := (h.omits q m k).mp hom
    have hu' := (h.upsertAt q p k).mp hu
    exact ha.ownUpserts q m k hom' p (hlimit q m k p hom' hu' hp) hu'
  ordered := by
    obtain ⟨_, hc⟩ := ha.ordered
    exact h.constrained hc

/-- The numbers do not matter where the limit does not depend on them. -/
theorem Renumbers.accounted_iff
    (hlimit : ∀ q m k p, Omits H q m k → UpsertAt H q p k →
      (p ≤ limit' (π q, m) ↔ p ≤ limit (q, m))) :
    Accounted H' histories' strongSession initial limit' ↔
      Accounted H histories strongSession initial limit := by
  constructor
  · apply h.symm.accounted
    intro q m k p hom hu
    obtain ⟨q, rfl⟩ := π.surjective q
    rw [π.symm_apply_apply]
    exact (hlimit q m k p ((h.omits q m k).mp hom) ((h.upsertAt q p k).mp hu)).mpr
  · apply h.accounted
    intro q m k p hom hu
    exact (hlimit q m k p hom hu).mp

end Renumbered

end Viper
