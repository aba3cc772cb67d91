import Mathlib.Data.List.Chain
import Mathlib.Data.List.Nodup
import Mathlib.Data.List.Perm.Basic
import Mathlib.Logic.Relation
import Mathlib.Order.Lattice

/-!
# Cutting a set into chains

Elements are cut into disjoint nonempty chains whose consecutive members are the
pairs of a partial successor relation. Adding a pair merges the chain that ends
in its first member with the chain that starts with the second one.
-/
namespace Chains

variable {ι : Type}

/-- `a` is directly followed by `b` in `C`. -/
def Linked (C : List ι) (a b : ι) : Prop := ∃ l₁ l₂, C = l₁ ++ a :: b :: l₂

theorem not_linked_singleton (x a b : ι) : ¬ Linked [x] a b := by
  rintro ⟨l₁, l₂, h⟩
  have := congrArg List.length h
  simp only [List.length_append, List.length_cons, List.length_nil] at this
  omega

theorem Linked.mem {C : List ι} {a b : ι} (h : Linked C a b) : a ∈ C ∧ b ∈ C := by
  obtain ⟨l₁, l₂, rfl⟩ := h
  simp

theorem linked_cons_cons (x y : ι) (C : List ι) (a b : ι) :
    Linked (x :: y :: C) a b ↔ (a = x ∧ b = y) ∨ Linked (y :: C) a b := by
  constructor
  · rintro ⟨_ | ⟨z, l₁⟩, l₂, h⟩
    · cases h
      exact .inl ⟨rfl, rfl⟩
    · rw [List.cons_append, List.cons.injEq] at h
      exact .inr ⟨l₁, l₂, h.2⟩
  · rintro (⟨rfl, rfl⟩ | ⟨l₁, l₂, h⟩)
    · exact ⟨[], C, rfl⟩
    · exact ⟨x :: l₁, l₂, by rw [h]; rfl⟩

theorem mem_zip_tail (C : List ι) (a b : ι) : (a, b) ∈ C.zip C.tail ↔ Linked C a b := by
  induction C with
  | nil => simp [Linked]
  | cons x C ih =>
    cases C with
    | nil => simp [not_linked_singleton]
    | cons y C =>
      rw [linked_cons_cons, ← ih]
      simp

/-- The first neighbours of a list are those of a prefix. -/
theorem prefix_zip_tail {xs : List ι} {qs : List (ι × ι)} {q : ι × ι}
    (h : qs ++ [q] <+: xs.zip xs.tail) : ∃ ys, ys <+: xs ∧ ys.zip ys.tail = qs ++ [q] := by
  induction xs generalizing qs with
  | nil => simp at h
  | cons x xs ih =>
    cases xs with
    | nil => simp at h
    | cons y xs =>
      rw [List.tail_cons, List.zip_cons_cons] at h
      cases qs with
      | nil =>
        rw [List.nil_append, List.cons_prefix_cons] at h
        exact ⟨[x, y], by simp, by simp [h.1]⟩
      | cons q' qs =>
        rw [List.cons_append, List.cons_prefix_cons] at h
        obtain ⟨rfl, h⟩ := h
        obtain ⟨ys, hys, hz⟩ := ih h
        cases ys with
        | nil => simp at hz
        | cons y' ys =>
          obtain ⟨rfl, -⟩ := List.cons_prefix_cons.mp hys
          refine ⟨x :: y' :: ys, List.cons_prefix_cons.mpr ⟨rfl, hys⟩, ?_⟩
          rw [List.tail_cons, List.zip_cons_cons, List.cons_append, List.cons.injEq]
          exact ⟨rfl, hz⟩

theorem zip_tail_mono {xs ys : List ι} (h : ys <+: xs) : ys.zip ys.tail <+: xs.zip xs.tail := by
  induction ys generalizing xs with
  | nil => exact List.nil_prefix
  | cons y ys ih =>
    obtain ⟨t, rfl⟩ := h
    cases ys with
    | nil => exact List.nil_prefix
    | cons y' ys => exact List.cons_prefix_cons.mpr ⟨rfl, ih (List.prefix_append _ t)⟩

theorem mem_zip_of_mem {ys : List ι} {y : ι} (hy : y ∈ ys) (hne : ys.zip ys.tail ≠ []) :
    ∃ q ∈ ys.zip ys.tail, y = q.1 ∨ y = q.2 := by
  obtain ⟨l₁, l₂, rfl⟩ := List.append_of_mem hy
  cases l₂ with
  | cons z l₂ => exact ⟨(y, z), (mem_zip_tail _ y z).mpr ⟨l₁, l₂, rfl⟩, .inl rfl⟩
  | nil =>
    rcases List.eq_nil_or_concat' l₁ with rfl | ⟨l, z, rfl⟩
    · exact absurd rfl hne
    · exact ⟨(z, y), (mem_zip_tail _ z y).mpr ⟨l, [], by simp⟩, .inr rfl⟩

/-- Consecutive members of a concatenation. -/
theorem linked_append (C D : List ι) (a b : ι) :
    Linked (C ++ D) a b ↔ Linked C a b ∨ Linked D a b ∨
      (C.getLast? = some a ∧ D.head? = some b) := by
  constructor
  · rintro ⟨l₁, l₂, h⟩
    rcases List.append_eq_append_iff.mp h with ⟨l, _, hD⟩ | ⟨l, hC, hl⟩
    · exact .inr (.inl ⟨l, l₂, hD⟩)
    · rcases l with _ | ⟨x, _ | ⟨y, l⟩⟩
      · exact .inr (.inl ⟨[], l₂, hl.symm⟩)
      · cases hl
        exact .inr (.inr ⟨by simp [hC], rfl⟩)
      · cases hl
        exact .inl ⟨l₁, l, hC⟩
  · rintro (⟨l₁, l₂, rfl⟩ | ⟨l₁, l₂, rfl⟩ | ⟨hC, hD⟩)
    · exact ⟨l₁, l₂ ++ D, by simp⟩
    · exact ⟨C ++ l₁, l₂, by simp⟩
    · obtain ⟨l₁, rfl⟩ := List.getLast?_eq_some_iff.mp hC
      obtain ⟨l₂, rfl⟩ := List.head?_eq_some_iff.mp hD
      exact ⟨l₁, l₂, by simp⟩

section Blocks

variable {α : Type} {f : α → List ι} {L : List α}

/-- The first element of a concatenation starts its first block that is not empty. -/
theorem head?_flatMap {z : ι} (h : (L.flatMap f).head? = some z) :
    ∃ l₁ b l₂, L = l₁ ++ b :: l₂ ∧ (f b).head? = some z ∧ ∀ x ∈ l₁, f x = [] := by
  induction L with
  | nil => cases h
  | cons a L ih =>
    rw [List.flatMap_cons, List.head?_append] at h
    cases hz : (f a).head? with
    | none =>
      rw [hz, Option.none_or] at h
      obtain ⟨l₁, b, l₂, rfl, hb, hl⟩ := ih h
      refine ⟨a :: l₁, b, l₂, rfl, hb, fun x hx => ?_⟩
      rcases List.mem_cons.mp hx with rfl | hx
      · exact List.head?_eq_none_iff.mp hz
      · exact hl x hx
    | some y =>
      rw [hz, Option.some_or] at h
      exact ⟨[], a, L, rfl, hz.trans h, fun x hx => by cases hx⟩

/-- The last element of a concatenation ends its last block that is not empty. -/
theorem getLast?_flatMap {y : ι} (h : (L.flatMap f).getLast? = some y) :
    ∃ l₁ a l₂, L = l₁ ++ a :: l₂ ∧ (f a).getLast? = some y ∧ ∀ x ∈ l₂, f x = [] := by
  induction L with
  | nil => cases h
  | cons a L ih =>
    rw [List.flatMap_cons, List.getLast?_append] at h
    cases hz : (L.flatMap f).getLast? with
    | none =>
      rw [hz, Option.none_or] at h
      refine ⟨[], a, L, rfl, h, fun x hx => ?_⟩
      exact List.flatMap_eq_nil_iff.mp (List.getLast?_eq_none_iff.mp hz) x hx
    | some z =>
      rw [hz, Option.some_or] at h
      obtain ⟨l₁, b, l₂, rfl, hb, hl⟩ := ih (hz.trans h)
      exact ⟨a :: l₁, b, l₂, rfl, hb, hl⟩

/-- Neighbours of a concatenation lie in one block, or end one and start the
next that is not empty. -/
theorem linked_flatMap {y z : ι} (h : Linked (L.flatMap f) y z) :
    (∃ a ∈ L, Linked (f a) y z) ∨
      ∃ l₁ a l₂ b l₃, L = l₁ ++ a :: (l₂ ++ b :: l₃) ∧ (f a).getLast? = some y ∧
      (∀ x ∈ l₂, f x = []) ∧ (f b).head? = some z := by
  induction L with
  | nil =>
    obtain ⟨l₁, l₂, he⟩ := h
    simp at he
  | cons a L ih =>
    rw [List.flatMap_cons, linked_append] at h
    rcases h with h | h | ⟨hy, hz⟩
    · exact .inl ⟨a, List.mem_cons_self, h⟩
    · rcases ih h with ⟨b, hb, hl⟩ | ⟨l₁, b, l₂, c, l₃, rfl, hb, hl, hc⟩
      · exact .inl ⟨b, List.mem_cons_of_mem a hb, hl⟩
      · exact .inr ⟨a :: l₁, b, l₂, c, l₃, rfl, hb, hl, hc⟩
    · obtain ⟨l₂, b, l₃, rfl, hb, hl⟩ := head?_flatMap hz
      exact .inr ⟨[], a, l₂, b, l₃, rfl, hy, hl, hb⟩

end Blocks

/-- The elements of `base`, cut into chains that follow `link`. -/
structure Chained (base : ι → Prop) (link : ι → ι → Prop) (cs : List (List ι)) : Prop where
  cover : ∀ x, base x ↔ ∃ C ∈ cs, x ∈ C
  nodup : cs.flatten.Nodup
  nonempty : ∀ {C}, C ∈ cs → C ≠ []
  linked : ∀ {a b}, link a b ↔ ∃ C ∈ cs, Linked C a b

/-- The first and the last element of a maximal row of linked elements. -/
structure Stretch (base : ι → Prop) (link : ι → ι → Prop) (a z : ι) : Prop where
  start : base a
  first : ∀ x, ¬ link x a
  last : ∀ y, ¬ link z y
  path : Relation.ReflTransGen link a z

/-- Singletons are chains without links. -/
theorem chained_singletons {l : List ι} (h : l.Nodup) :
    Chained (· ∈ l) (fun _ _ => False) (l.map fun x => [x]) where
  cover x := by simp
  nodup := by
    rw [← List.flatMap_def]
    simpa using h
  nonempty hC := by
    obtain ⟨x, _, rfl⟩ := List.mem_map.mp hC
    simp
  linked := by simp [not_linked_singleton]

section Merge

variable {base : ι → Prop} {link : ι → ι → Prop} {cs : List (List ι)} (h : Chained base link cs)
include h

theorem Chained.perm {ds : List (List ι)} (hp : ds.Perm cs) : Chained base link ds where
  cover x := by simp only [h.cover, hp.mem_iff]
  nodup := hp.flatten.nodup_iff.mpr h.nodup
  nonempty hC := h.nonempty (hp.mem_iff.mp hC)
  linked := by simp only [h.linked, hp.mem_iff, implies_true]

theorem Chained.congr {base' : ι → Prop} {link' : ι → ι → Prop} (hb : ∀ x, base x ↔ base' x)
    (hl : ∀ a b, link a b ↔ link' a b) : Chained base' link' cs :=
  ⟨fun x => (hb x).symm.trans (h.cover x), h.nodup, h.nonempty, (hl _ _).symm.trans h.linked⟩

/-- A chain is known by any of its members. -/
theorem Chained.eq_of_mem {C D : List ι} (hC : C ∈ cs) (hD : D ∈ cs) {x : ι} (hx : x ∈ C)
    (hx' : x ∈ D) : C = D := by
  by_contra hne
  have hp := (List.nodup_flatten.mp h.nodup).2
  have : Std.Symm (List.Disjoint (α := ι)) := ⟨fun _ _ h a ha hb => h hb ha⟩
  exact hp.forall hC hD hne hx hx'

theorem Chained.nodup_chains : cs.Nodup := by
  obtain ⟨_, hp⟩ := List.nodup_flatten.mp h.nodup
  refine hp.imp_of_mem (fun {C D} hC _ hdis he => ?_)
  obtain ⟨x, hx⟩ := List.exists_mem_of_ne_nil C (h.nonempty hC)
  exact hdis hx (he ▸ hx)

/-- An element without a successor ends its chain. -/
theorem Chained.exists_last {a : ι} (ha : base a) (hl : ∀ b, ¬ link a b) :
    ∃ C ∈ cs, C.getLast? = some a := by
  obtain ⟨C, hC, hm⟩ := (h.cover a).mp ha
  obtain ⟨l₁, l₂, rfl⟩ := List.append_of_mem hm
  cases l₂ with
  | nil => exact ⟨_, hC, by simp⟩
  | cons b l₂ => exact absurd (h.linked.mpr ⟨_, hC, l₁, l₂, rfl⟩) (hl b)

/-- An element without a predecessor starts its chain. -/
theorem Chained.exists_head {b : ι} (hb : base b) (hl : ∀ a, ¬ link a b) :
    ∃ C ∈ cs, C.head? = some b := by
  obtain ⟨C, hC, hm⟩ := (h.cover b).mp hb
  obtain ⟨l₁, l₂, rfl⟩ := List.append_of_mem hm
  rcases List.eq_nil_or_concat l₁ with rfl | ⟨l, a, rfl⟩
  · exact ⟨_, hC, by simp⟩
  · exact absurd (h.linked.mpr ⟨_, hC, l, l₂, by simp⟩) (hl a)

/-- Two chains joined end to end. -/
theorem Chained.merge {C D : List ι} {rest : List (List ι)}
    (hp : cs.Perm (C :: D :: rest)) {a b : ι} (ha : C.getLast? = some a) (hb : D.head? = some b) :
    Chained base (fun x y => link x y ∨ (x = a ∧ y = b)) ((C ++ D) :: rest) where
  cover x := by
    rw [(h.perm hp.symm).cover]
    simp [or_assoc]
  nodup := by
    have := (h.perm hp.symm).nodup
    simpa [List.append_assoc] using this
  nonempty hE := by
    rcases List.mem_cons.mp hE with rfl | hE
    · exact List.append_ne_nil_of_left_ne_nil ((h.perm hp.symm).nonempty List.mem_cons_self) D
    · exact (h.perm hp.symm).nonempty (List.mem_cons_of_mem _ (List.mem_cons_of_mem _ hE))
  linked := by
    intro x y
    rw [(h.perm hp.symm).linked]
    simp only [List.exists_mem_cons_iff, linked_append, ha, hb, Option.some.injEq]
    constructor
    · rintro ((h | h | h) | ⟨rfl, rfl⟩)
      · exact .inl (.inl h)
      · exact .inl (.inr (.inl h))
      · exact .inr h
      · exact .inl (.inr (.inr ⟨rfl, rfl⟩))
    · rintro ((h | h | ⟨rfl, rfl⟩) | h)
      · exact .inl (.inl h)
      · exact .inl (.inr (.inl h))
      · exact .inr ⟨rfl, rfl⟩
      · exact .inl (.inr (.inr h))

theorem Chained.isChain {C : List ι} (hC : C ∈ cs) : C.IsChain link :=
  List.isChain_iff_forall_rel_of_append_cons_cons.mpr
    (fun {_ _ l₁ l₂} he => h.linked.mpr ⟨C, hC, l₁, l₂, he⟩)

end Merge

section Ends

/-- Neighbours of a list without duplicates have neighbouring positions. -/
theorem Linked.idxOf [DecidableEq ι] {L : List ι} (hn : L.Nodup) {a b : ι} (h : Linked L a b) :
    L.idxOf b = L.idxOf a + 1 ∧ L[L.idxOf a]? = some a ∧ L[L.idxOf a + 1]? = some b := by
  obtain ⟨l₁, l₂, rfl⟩ := h
  obtain ⟨_, hn₂, hdis⟩ := List.nodup_append.mp hn
  have ha : a ∉ l₁ := fun hm => hdis a hm a List.mem_cons_self rfl
  have hb : b ∉ l₁ := fun hm => hdis b hm b (by simp) rfl
  have hab : a ≠ b := fun he => by simp [he] at hn₂
  rw [List.idxOf_append_of_notMem ha, List.idxOf_append_of_notMem hb, List.idxOf_cons_self,
    List.idxOf_cons_ne _ hab, List.idxOf_cons_self]
  simp

variable {base : ι → Prop} {link : ι → ι → Prop} {cs : List (List ι)} (h : Chained base link cs)
include h

theorem Chained.linked_flatten {a b : ι} (hab : link a b) : Linked cs.flatten a b := by
  obtain ⟨C, hC, l₁, l₂, rfl⟩ := h.linked.mp hab
  obtain ⟨d₁, d₂, rfl⟩ := List.append_of_mem hC
  exact ⟨d₁.flatten ++ l₁, l₂ ++ d₂.flatten, by simp⟩

/-- In chains every element has at most one successor. -/
theorem Chained.successor_unique [DecidableEq ι] {a b b' : ι} (hb : link a b)
    (hb' : link a b') : b = b' := by
  have h₁ := ((h.linked_flatten hb).idxOf h.nodup).2.2
  have h₂ := ((h.linked_flatten hb').idxOf h.nodup).2.2
  exact Option.some.inj (h₁.symm.trans h₂)

theorem Chained.predecessor_unique [DecidableEq ι] {a a' b : ι} (ha : link a b)
    (ha' : link a' b) : a = a' := by
  obtain ⟨h₁, h₂, _⟩ := (h.linked_flatten ha).idxOf h.nodup
  obtain ⟨h₁', h₂', _⟩ := (h.linked_flatten ha').idxOf h.nodup
  have he : cs.flatten.idxOf a = cs.flatten.idxOf a' := Nat.succ_injective (h₁.symm.trans h₁')
  rw [he] at h₂
  exact Option.some.inj (h₂.symm.trans h₂')

theorem Chained.lt_of_link [DecidableEq ι] {a b : ι} (hab : link a b) :
    cs.flatten.idxOf a < cs.flatten.idxOf b := by
  rw [((h.linked_flatten hab).idxOf h.nodup).1]
  exact Nat.lt_succ_self _

/-- Nothing is linked to the head of a chain. -/
theorem Chained.not_link_head [DecidableEq ι] {C : List ι} (hC : C ∈ cs) {a : ι}
    (ha : C.head? = some a) (x : ι) :
    ¬ link x a := by
  intro hx
  obtain ⟨D, hD, hl⟩ := h.linked.mp hx
  obtain rfl := h.eq_of_mem hD hC hl.mem.2 (List.mem_of_head? ha)
  obtain ⟨l, rfl⟩ := List.head?_eq_some_iff.mp ha
  have := (hl.idxOf ((List.nodup_flatten.mp h.nodup).1 _ hC)).1
  simp at this

/-- Chains are exactly the maximal rows. -/
theorem Chained.stretch_iff [DecidableEq ι] {a z : ι} :
    Stretch base link a z ↔ ∃ C ∈ cs, C.head? = some a ∧ C.getLast? = some z := by
  constructor
  · intro hs
    obtain ⟨C, hC, ha⟩ := h.exists_head hs.start hs.first
    refine ⟨C, hC, ha, ?_⟩
    have hreach : ∀ {y}, Relation.ReflTransGen link a y → y ∈ C := by
      intro y hy
      induction hy with
      | refl => exact List.mem_of_head? ha
      | tail _ hxy ih =>
        obtain ⟨D, hD, hl⟩ := h.linked.mp hxy
        exact h.eq_of_mem hC hD ih hl.mem.1 ▸ hl.mem.2
    obtain ⟨l₁, l₂, rfl⟩ := List.append_of_mem (hreach hs.path)
    cases l₂ with
    | nil => simp
    | cons y l₂ => exact absurd (h.linked.mpr ⟨_, hC, l₁, l₂, rfl⟩) (hs.last y)
  · rintro ⟨C, hC, ha, hz⟩
    have hmem : ∀ {D x}, D ∈ cs → x ∈ D → x ∈ C → D = C := fun hD hx hx' => h.eq_of_mem hD hC hx hx'
    have hn : C.Nodup := (List.nodup_flatten.mp h.nodup).1 C hC
    refine ⟨(h.cover a).mpr ⟨C, hC, List.mem_of_head? ha⟩, h.not_link_head hC ha,
      fun y hy => ?_, ?_⟩
    · obtain ⟨D, hD, hl⟩ := h.linked.mp hy
      obtain rfl := hmem hD hl.mem.1 (List.mem_of_getLast? hz)
      obtain ⟨l, rfl⟩ := List.getLast?_eq_some_iff.mp hz
      have hzl : z ∉ l := fun hm => (List.nodup_append.mp hn).2.2 z hm z List.mem_cons_self rfl
      have := (hl.idxOf hn).2.2
      rw [List.idxOf_append_of_notMem hzl] at this
      simp at this
    · obtain ⟨l, rfl⟩ := List.head?_eq_some_iff.mp ha
      have hpath :=
        List.relationReflTransGen_of_exists_isChain (a :: l) (h.isChain hC) (List.cons_ne_nil a l)
      rw [List.getLast?_eq_some_getLast (List.cons_ne_nil a l)] at hz
      rw [Option.some.inj hz] at hpath
      exact hpath

end Ends

/-- Dealing a list out by a key that takes the values `ks` permutes it. -/
theorem flatMap_filter_perm {α : Type} [DecidableEq α] (f : ι → α) (l : List ι) (ks : List α)
    (hn : ks.Nodup) :
    (ks.flatMap fun k => l.filter (fun x => f x = k)).Perm (l.filter (fun x => f x ∈ ks)) := by
  induction ks with
  | nil => simp
  | cons k ks ih =>
    have hk : k ∉ ks := (List.nodup_cons.mp hn).1
    have hsplit := List.filter_append_perm (fun x => f x = k) (l.filter (fun x => f x ∈ k :: ks))
    have hfirst : (l.filter (fun x => f x ∈ k :: ks)).filter (fun x => f x = k) =
        l.filter (fun x => f x = k) := by
      rw [List.filter_filter]
      apply List.filter_congr
      intro x _
      by_cases hx : f x = k <;> simp [hx]
    have hrest : (l.filter (fun x => f x ∈ k :: ks)).filter (fun x => !decide (f x = k)) =
        l.filter (fun x => f x ∈ ks) := by
      rw [List.filter_filter]
      apply List.filter_congr
      intro x _
      by_cases hx : f x = k
      · simp [hx, hk]
      · simp [hx]
    rw [hfirst, hrest] at hsplit
    rw [List.flatMap_cons]
    exact ((ih (List.nodup_cons.mp hn).2).append_left _).trans hsplit

section Increasing

variable [LinearOrder ι]

/-- In an increasing list neighbours are the elements with nothing between them. -/
theorem linked_iff_of_increasing {L : List ι} (hs : L.Pairwise (· < ·)) (a b : ι) :
    Linked L a b ↔ a ∈ L ∧ b ∈ L ∧ a < b ∧ ∀ x ∈ L, ¬ (a < x ∧ x < b) := by
  constructor
  · intro h
    obtain ⟨l₁, l₂, rfl⟩ := h
    rw [List.pairwise_append] at hs
    obtain ⟨_, hs, hcross⟩ := hs
    have hab : a < b := (List.pairwise_cons.mp hs).1 b List.mem_cons_self
    refine ⟨by simp, by simp, hab, ?_⟩
    intro x hx hlt
    cases List.mem_append.mp hx with
    | inl hx => exact lt_asymm hlt.1 (hcross x hx a List.mem_cons_self)
    | inr hx =>
      cases List.mem_cons.mp hx with
      | inl hx => exact lt_irrefl _ (hx ▸ hlt.1)
      | inr hx =>
        cases List.mem_cons.mp hx with
        | inl hx => exact lt_irrefl _ (hx ▸ hlt.2)
        | inr hx =>
          exact lt_asymm hlt.2 ((List.pairwise_cons.mp (List.pairwise_cons.mp hs).2).1 x hx)
  · intro h
    obtain ⟨ha, hb, hab, hno⟩ := h
    obtain ⟨l₁, l₂, rfl⟩ := List.append_of_mem ha
    rw [List.pairwise_append] at hs
    obtain ⟨_, hs, hcross⟩ := hs
    have hb₂ : b ∈ l₂ := by
      cases List.mem_append.mp hb with
      | inl hb => exact absurd (hcross b hb a List.mem_cons_self) (lt_asymm hab)
      | inr hb => exact (List.mem_cons.mp hb).resolve_left hab.ne'
    cases l₂ with
    | nil => cases hb₂
    | cons y l₂ =>
      cases List.mem_cons.mp hb₂ with
      | inl hby => exact ⟨l₁, l₂, by rw [hby]⟩
      | inr hbl =>
        have hay : a < y := (List.pairwise_cons.mp hs).1 y List.mem_cons_self
        have hyb : y < b := (List.pairwise_cons.mp (List.pairwise_cons.mp hs).2).1 b hbl
        exact absurd ⟨hay, hyb⟩ (hno y (by simp))

/-- In an increasing list every later element is reached from neighbour to neighbour. -/
theorem linked_path_of_lt {L : List ι} (hs : L.Pairwise (· < ·)) {a b : ι} (ha : a ∈ L) (hb : b ∈ L)
    (hab : a < b) :
    Relation.TransGen (Linked L) a b := by
  induction L generalizing a with
  | nil => cases ha
  | cons x L ih =>
    rw [List.pairwise_cons] at hs
    obtain ⟨hx, hs⟩ := hs
    have hmono : ∀ {a b : ι}, Relation.TransGen (Linked L) a b →
        Relation.TransGen (Linked (x :: L)) a b := by
      intro a b h
      apply Relation.TransGen.mono ?_ a b h
      intro a b hab
      obtain ⟨l₁, l₂, rfl⟩ := hab
      exact ⟨x :: l₁, l₂, rfl⟩
    have hbL : b ∈ L := by
      apply (List.mem_cons.mp hb).resolve_left
      intro hbx
      cases List.mem_cons.mp ha with
      | inl hax => exact hab.ne (hax.trans hbx.symm)
      | inr ha => exact lt_asymm hab (hbx ▸ hx a ha)
    cases List.mem_cons.mp ha with
    | inr ha => exact hmono (ih hs ha hbL hab)
    | inl hax =>
      subst hax
      cases L with
      | nil => cases hbL
      | cons y L =>
        have hay : Linked (a :: y :: L) a y := ⟨[], L, rfl⟩
        cases List.mem_cons.mp hbL with
        | inl hby =>
          rw [hby]
          exact .single hay
        | inr hbl =>
          have hyb : y < b := (List.pairwise_cons.mp hs).1 b hbl
          exact .head hay (hmono (ih hs List.mem_cons_self hbL hyb))

end Increasing

end Chains
