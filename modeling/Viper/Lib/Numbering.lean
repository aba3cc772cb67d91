import Mathlib.Data.List.Perm.Basic
import Mathlib.Logic.Equiv.Defs

/-!
# Numbering the members of lists

The members of a list of lists take consecutive numbers, list by list. When the
lists come in another order, the members keep their neighbours and get other
numbers: the two numberings differ by a bijection.
-/
namespace Numbering

variable {α : Type}

/-- Consecutive numbers from `n` on. -/
def numberFrom (n : Nat) (l : List α) : List (Nat × α) := (l.zipIdx n).map Prod.swap

/-- The numbers of a list continue those of the lists before it. -/
def numberAll : Nat → List (List α) → List (List (Nat × α))
  | _, [] => []
  | n, l :: L => numberFrom n l :: numberAll (n + l.length) L

/-- The same members under other numbers. -/
def renumber (f : Nat → Nat) : List (Nat × α) → List (Nat × α) := List.map (Prod.map f id)

theorem mem_numberFrom {n : Nat} {l : List α} {i : Nat} {a : α} :
    (i, a) ∈ numberFrom n l ↔ n ≤ i ∧ l[i - n]? = some a := by
  rw [numberFrom, List.mem_map, ← List.mk_mem_zipIdx_iff_le_and_getElem?_sub]
  constructor
  · intro h
    obtain ⟨p, hp, he⟩ := h
    cases he
    exact hp
  · intro h
    exact ⟨(a, i), h, rfl⟩

theorem lt_of_mem_numberFrom {n : Nat} {l : List α} {i : Nat} {a : α}
    (h : (i, a) ∈ numberFrom n l) :
    n ≤ i ∧ i < n + l.length := by
  obtain ⟨hle, hi⟩ := mem_numberFrom.mp h
  obtain ⟨hlt, _⟩ := List.getElem?_eq_some_iff.mp hi
  omega

theorem nodup_numberFrom (n : Nat) (l : List α) : ((numberFrom n l).map Prod.fst).Nodup := by
  have hnums : (numberFrom n l).map Prod.fst = List.range' n l.length := by
    rw [numberFrom, List.map_map]
    exact List.zipIdx_map_snd n l
  rw [hnums]
  exact List.nodup_range'

theorem nodup_of_mem_numberAll {n : Nat} {L : List (List α)} {l : List (Nat × α)}
    (h : l ∈ numberAll n L) :
    (l.map Prod.fst).Nodup := by
  induction L generalizing n with
  | nil => cases h
  | cons l' L ih =>
    cases List.mem_cons.mp h with
    | inl he =>
      rw [he]
      exact nodup_numberFrom n l'
    | inr hm => exact ih hm

theorem flatten_numberAll (n : Nat) (L : List (List α)) :
    (numberAll n L).flatten = numberFrom n L.flatten := by
  induction L generalizing n with
  | nil => rfl
  | cons l L ih =>
    rw [numberAll, List.flatten_cons, ih, List.flatten_cons, numberFrom, numberFrom, numberFrom,
      List.zipIdx_append, List.map_append]

theorem renumber_renumber (f g : Nat → Nat) (l : List (Nat × α)) :
    renumber g (renumber f l) = renumber (g ∘ f) l := by
  rw [renumber, renumber, List.map_map]
  rfl

/-- Numbers that a function leaves alone. -/
theorem renumber_eq_self {f : Nat → Nat} {l : List (Nat × α)} (h : ∀ i a, (i, a) ∈ l → f i = i) :
    renumber f l = l := by
  have hmap : l.map (Prod.map f id) = l.map id := by
    apply List.map_congr_left
    intro p hp
    rw [Prod.map, h p.1 p.2 hp]
    rfl
  rw [renumber, hmap, List.map_id]

/-- A function that moves the numbers from `n` on by a constant. -/
theorem renumber_numberFrom {f : Nat → Nat} {n m : Nat} {l : List α}
    (h : ∀ i, i < l.length → f (n + i) = m + i) :
    renumber f (numberFrom n l) = numberFrom m l := by
  induction l generalizing n m with
  | nil => rfl
  | cons a l ih =>
    have hhead : f n = m := h 0 (by simp)
    have htail : renumber f (numberFrom (n + 1) l) = numberFrom (m + 1) l := by
      apply ih
      intro i hi
      have hnext := h (i + 1) (by simp [hi])
      rwa [← Nat.add_assoc, ← Nat.add_assoc, Nat.add_right_comm, Nat.add_right_comm m] at hnext
    rw [renumber, numberFrom, numberFrom] at htail
    simp only [renumber, numberFrom, List.zipIdx_cons, List.map_cons, Prod.swap_prod_mk, Prod.map,
      id, hhead, htail]

/-- Two blocks of numbers change places. -/
def swapBlocks (n a b : Nat) : Equiv.Perm Nat where
  toFun i := if n ≤ i ∧ i < n + a then i + b else if n + a ≤ i ∧ i < n + a + b then i - a else i
  invFun i := if n ≤ i ∧ i < n + b then i + a else if n + b ≤ i ∧ i < n + b + a then i - b else i
  left_inv i := by grind
  right_inv i := by grind

theorem swapBlocks_first {n a b i : Nat} (h : i < a) : swapBlocks n a b (n + i) = n + b + i := by
  have hi : n ≤ n + i ∧ n + i < n + a := by omega
  simp only [swapBlocks, Equiv.coe_fn_mk, if_pos hi]
  omega

theorem swapBlocks_second {n a b i : Nat} (h : i < b) : swapBlocks n a b (n + a + i) = n + i := by
  have hno : ¬ (n ≤ n + a + i ∧ n + a + i < n + a) := by omega
  have hi : n + a ≤ n + a + i ∧ n + a + i < n + a + b := by omega
  simp only [swapBlocks, Equiv.coe_fn_mk, if_neg hno, if_pos hi]
  omega

theorem swapBlocks_other {n a b i : Nat} (h : i < n ∨ n + a + b ≤ i) : swapBlocks n a b i = i := by
  have hno : ¬ (n ≤ i ∧ i < n + a) := by omega
  have hno' : ¬ (n + a ≤ i ∧ i < n + a + b) := by omega
  simp only [swapBlocks, Equiv.coe_fn_mk, if_neg hno, if_neg hno']

theorem le_of_mem_numberAll {n : Nat} {L : List (List α)} {l : List (Nat × α)}
    (hl : l ∈ numberAll n L) {i : Nat} {a : α} (h : (i, a) ∈ l) : n ≤ i := by
  have hm : (i, a) ∈ (numberAll n L).flatten := List.mem_flatten.mpr ⟨l, hl, h⟩
  rw [flatten_numberAll] at hm
  exact (mem_numberFrom.mp hm).1

section Bijection

variable (π : Equiv.Perm Nat)

theorem mem_renumber {l : List (Nat × α)} {i : Nat} {a : α} :
    (π i, a) ∈ renumber π l ↔ (i, a) ∈ l := by
  constructor
  · intro h
    obtain ⟨p, hp, he⟩ := List.mem_map.mp h
    obtain ⟨j, b⟩ := p
    obtain ⟨hij, hab⟩ := Prod.mk.inj he
    obtain rfl := π.injective hij
    obtain rfl := hab
    exact hp
  · intro h
    exact List.mem_map.mpr ⟨(i, a), h, rfl⟩

/-- Neighbours stay neighbours. -/
theorem neighbours_renumber {l : List (Nat × α)} {i j : Nat} :
    (∃ p ∈ (renumber π l).zip (renumber π l).tail, p.1.1 = π i ∧ p.2.1 = π j) ↔
      ∃ p ∈ l.zip l.tail, p.1.1 = i ∧ p.2.1 = j := by
  rw [renumber, ← List.map_tail, List.zip_map]
  constructor
  · intro h
    obtain ⟨q, hq, hi, hj⟩ := h
    obtain ⟨p, hp, rfl⟩ := List.mem_map.mp hq
    exact ⟨p, hp, π.injective hi, π.injective hj⟩
  · intro h
    obtain ⟨p, hp, rfl, rfl⟩ := h
    exact ⟨_, List.mem_map_of_mem hp, rfl, rfl⟩

end Bijection

/-- Two orders of the same lists number them alike, up to a bijection. -/
theorem exists_renumbering {L L' : List (List α)} (h : L.Perm L') (n : Nat) :
    ∃ π : Equiv.Perm Nat, (∀ i, i < n → π i = i) ∧
      ((numberAll n L).map (renumber π)).Perm (numberAll n L') := by
  induction h generalizing n with
  | nil => exact ⟨Equiv.refl Nat, fun _ _ => rfl, .nil⟩
  | cons l _ ih =>
    obtain ⟨π, hfix, hπ⟩ := ih (n + l.length)
    refine ⟨π, fun i hi => hfix i (by omega), ?_⟩
    have hl : renumber π (numberFrom n l) = numberFrom n l := by
      apply renumber_eq_self
      intro i a hm
      exact hfix i (lt_of_mem_numberFrom hm).2
    rw [numberAll, numberAll, List.map_cons, hl]
    exact hπ.cons _
  | swap l l' L =>
    refine ⟨swapBlocks n l'.length l.length, fun i hi => swapBlocks_other (.inl hi), ?_⟩
    have h₁ : renumber (swapBlocks n l'.length l.length) (numberFrom n l') =
      numberFrom (n + l.length) l' :=
      renumber_numberFrom fun i hi => swapBlocks_first hi
    have h₂ : renumber (swapBlocks n l'.length l.length) (numberFrom (n + l'.length) l) =
      numberFrom n l :=
      renumber_numberFrom fun i hi => swapBlocks_second hi
    have hrest : (numberAll (n + l'.length + l.length) L).map
        (renumber (swapBlocks n l'.length l.length)) =
        numberAll (n + l'.length + l.length) L := by
      conv_rhs => rw [← List.map_id (numberAll (n + l'.length + l.length) L)]
      apply List.map_congr_left
      intro m hm
      apply renumber_eq_self
      intro i a hi
      exact swapBlocks_other (.inr (le_of_mem_numberAll hm hi))
    simp only [numberAll, List.map_cons, h₁, h₂, hrest, Nat.add_right_comm n l.length]
    exact .swap _ _ _
  | trans _ _ ih₁ ih₂ =>
    obtain ⟨π₁, hfix₁, h₁⟩ := ih₁ n
    obtain ⟨π₂, hfix₂, h₂⟩ := ih₂ n
    refine ⟨π₁.trans π₂, fun i hi => ?_, ?_⟩
    · rw [Equiv.trans_apply, hfix₁ i hi, hfix₂ i hi]
    · have hmap := h₁.map (renumber π₂)
      rw [List.map_map] at hmap
      have hcomp : renumber π₂ ∘ renumber π₁ = renumber (α := α) (π₁.trans π₂) := by
        funext l
        exact renumber_renumber _ _ l
      rw [hcomp] at hmap
      exact hmap.trans h₂

end Numbering
