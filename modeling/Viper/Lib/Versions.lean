import Viper.Lib.Chains
import Mathlib.Data.List.Pairwise
import Mathlib.Tactic.Order

/-!
# Versions of a key, chained

Transactions occupy intervals `[s i, c i]` of a linear order. A workload says
who writes a key and who reads whose version of it. It is legal when the
writers of a key are pairwise disjoint and every reader sees the last version
committed before it began.

The same can be said with the writers of a key cut into chains: a chain is
ordered inside, readers of an inner version begin before its successor commits,
and two chains never interleave. `legal_of_chainLegal` and
`chainLegal_of_adjacent` are the two directions.
-/
namespace Versions

variable {E ι κ : Type} [LinearOrder E]

structure Workload (κ ι : Type) where
  writes : κ → ι → Prop
  readsFrom : κ → ι → ι → Prop

/-- Disjoint writers, and every reader sees the latest version of its snapshot. -/
structure Legal (W : Workload κ ι) (s c : ι → E) : Prop where
  apart : ∀ {k i j}, W.writes k i → W.writes k j → i ≠ j → c i < s j ∨ c j < s i
  reads : ∀ {k i j}, W.readsFrom k i j → c i < s j
  others : ∀ {k i j x}, W.readsFrom k i j → W.writes k x → x ≠ i → x ≠ j → c x < s i ∨ s j < c x

/-- The writers of every key, cut into chains of linked transactions. -/
def Chaining (W : Workload κ ι) (link : κ → ι → ι → Prop) (chains : κ → List (List ι)) : Prop :=
  ∀ k, Chains.Chained (W.writes k) (link k) (chains k)

/-- Chain `C` precedes chain `D`: its last version is overwritten by the first of `D`. -/
def Before (W : Workload κ ι) (s c : ι → E) (k : κ) (C D : List ι) : Prop :=
  ∀ a b, C.getLast? = some a → D.head? = some b →
    c a < s b ∧ ∀ r, W.readsFrom k a r → s r < c b

structure ChainLegal (W : Workload κ ι) (chains : κ → List (List ι)) (s c : ι → E) : Prop where
  reads : ∀ {k i j}, W.readsFrom k i j → c i < s j
  inner : ∀ {k C l₁ a b l₂ r}, C ∈ chains k → C = l₁ ++ a :: b :: l₂ → W.readsFrom k a r → r ≠ b →
    s r < c b
  outer : ∀ {k C D}, C ∈ chains k → D ∈ chains k → C ≠ D → Before W s c k C D ∨ Before W s c k D C

/-- Consecutive intervals of a sequence of transactions. -/
def Follows (s c : ι → E) (a b : ι) : Prop := c a < s b ∧ s b < c b

instance (s c : ι → E) : Trans (Follows s c) (Follows s c) (Follows s c) where
  trans h₁ h₂ := ⟨by obtain ⟨_, _⟩ := h₁; obtain ⟨_, _⟩ := h₂; order, h₂.2⟩

section Sequence

variable {s c : ι → E} {C : List ι}

theorem le_last (h : C.Pairwise (Follows s c)) {a z : ι} (ha : a ∈ C) (hz : C.getLast? = some z) :
    c a ≤ c z := by
  obtain ⟨l, rfl⟩ := List.getLast?_eq_some_iff.mp hz
  rcases List.mem_append.mp ha with hl | hl
  · have hf := (List.pairwise_append.mp h).2.2 a hl z (List.mem_singleton.mpr rfl)
    exact le_of_lt (hf.1.trans hf.2)
  · rw [List.mem_singleton.mp hl]

theorem head_le (h : C.Pairwise (Follows s c)) {a z : ι} (ha : a ∈ C) (hz : C.head? = some z)
    (hsc : s a < c a) (hz' : s z < c z) : s z ≤ s a ∧ c z ≤ c a := by
  obtain ⟨l, rfl⟩ := List.head?_eq_some_iff.mp hz
  rcases List.mem_cons.mp ha with rfl | hl
  · exact ⟨le_refl _, le_refl _⟩
  · obtain ⟨hf, _⟩ := (List.pairwise_cons.mp h).1 a hl
    exact ⟨by order, by order⟩

/-- A chain whose links are consecutive intervals is ordered throughout. -/
theorem pairwise_follows {R : ι → ι → Prop} (h : C.IsChain R)
    (hR : ∀ a b, a ∈ C → b ∈ C → R a b → Follows s c a b) : C.Pairwise (Follows s c) := by
  rw [← List.isChain_iff_pairwise]
  exact h.imp_of_mem_imp hR

end Sequence

variable {W : Workload κ ι} {link : κ → ι → ι → Prop} {chains : κ → List (List ι)} {s c : ι → E}

theorem Chaining.exists_last (hC : Chaining W link chains) {k : κ} {C : List ι} (h : C ∈ chains k) :
    ∃ z, C.getLast? = some z := by
  obtain ⟨z, hz⟩ := Option.isSome_iff_exists.mp (List.getLast?_isSome.mpr ((hC k).nonempty h))
  exact ⟨z, hz⟩

theorem Chaining.exists_head (hC : Chaining W link chains) {k : κ} {C : List ι} (h : C ∈ chains k) :
    ∃ z, C.head? = some z := by
  obtain ⟨z, hz⟩ := Option.isSome_iff_exists.mp (List.isSome_head?.mpr ((hC k).nonempty h))
  exact ⟨z, hz⟩

theorem Chaining.writes_of_mem (hC : Chaining W link chains) {k : κ} {C : List ι} {x : ι}
    (h : C ∈ chains k) (hx : x ∈ C) : W.writes k x := ((hC k).cover x).mpr ⟨C, h, hx⟩

section ToLegal

variable (hC : Chaining W link chains) (hsc : ∀ k x, W.writes k x → s x < c x)
  (hl : ∀ k a b, link k a b → W.readsFrom k a b) (hL : ChainLegal W chains s c)
include hC hsc hl hL

theorem chain_follows {k : κ} {C : List ι} (h : C ∈ chains k) : C.Pairwise (Follows s c) :=
  pairwise_follows ((hC _).isChain h) (fun a b _ hb hab =>
    ⟨hL.reads (hl k a b hab), hsc k b (hC.writes_of_mem h hb)⟩)

/-- Everything in an earlier chain is over before anything of a later one starts. -/
theorem lt_of_before {k : κ} {C D : List ι} (h : C ∈ chains k) (h' : D ∈ chains k)
    (hb : Before W s c k C D) {x y : ι} (hx : x ∈ C) (hy : y ∈ D) : c x < s y := by
  obtain ⟨a, ha⟩ := hC.exists_last h
  obtain ⟨b, hb'⟩ := hC.exists_head h'
  have h₁ := le_last (chain_follows hC hsc hl hL h) hx ha
  have h₂ := (head_le (chain_follows hC hsc hl hL h') hy hb'
    (hsc k y (hC.writes_of_mem h' hy)) (hsc k b (hC.writes_of_mem h' (List.mem_of_head? hb')))).1
  have h₃ := (hb a b ha hb').1
  order

/-- A reader of a version begins before every later version of the chain commits. -/
theorem reader_lt_later {k : κ} {C l₁ l₂ : List ι} {i j x : ι} (h : C ∈ chains k)
    (he : C = l₁ ++ i :: l₂) (hr : W.readsFrom k i j) (hx : x ∈ l₂) (hxj : x ≠ j) : s j < c x := by
  cases l₂ with
  | nil => cases hx
  | cons b l₃ =>
    have hp := chain_follows hC hsc hl hL h
    rw [he] at hp
    have hp' := (List.pairwise_cons.mp (List.pairwise_append.mp hp).2.1).2
    have hbC : b ∈ C := by simp [he]
    have hb : s b < c b := hsc k b (hC.writes_of_mem h hbC)
    by_cases hjb : j = b
    · subst hjb
      have hx' : x ∈ l₃ := (List.mem_cons.mp hx).resolve_left hxj
      obtain ⟨h₁, h₂⟩ := (List.pairwise_cons.mp hp').1 x hx'
      order
    · have hin := hL.inner h he hr hjb
      rcases List.mem_cons.mp hx with rfl | hx'
      · exact hin
      · obtain ⟨h₁, h₂⟩ := (List.pairwise_cons.mp hp').1 x hx'
        order

/-- A reader of a version begins before anything in a later chain commits. -/
theorem reader_lt_chain {k : κ} {C D : List ι} {i j x : ι} (h : C ∈ chains k) (h' : D ∈ chains k)
    (hb : Before W s c k C D) (hr : W.readsFrom k i j) (hi : i ∈ C) (hx : x ∈ D) : s j < c x := by
  have hsx := hsc k x (hC.writes_of_mem h' hx)
  obtain ⟨l₁, l₂, he⟩ := List.append_of_mem hi
  cases l₂ with
  | nil =>
    -- the version read is the last of its chain
    obtain ⟨b, hb'⟩ := hC.exists_head h'
    have hlast : C.getLast? = some i := by simp [he]
    have h₁ := (hb i b hlast hb').2 j hr
    have hbw := hC.writes_of_mem h' (List.mem_of_head? hb')
    have h₂ := (head_le (chain_follows hC hsc hl hL h') hx hb' hsx (hsc k b hbw)).2
    order
  | cons b l₃ =>
    -- the next version of the chain commits before the other chain starts
    have hbC : b ∈ C := by simp [he]
    have h₁ := lt_of_before hC hsc hl hL h h' hb hbC hx
    by_cases hjb : b = j
    · have hsj := hsc k b (hC.writes_of_mem h hbC)
      rw [hjb] at h₁ hsj
      order
    · have h₂ := hL.inner h he hr (Ne.symm hjb)
      order

/-- Chains ordered inside and not interleaving give a legal workload. -/
theorem legal_of_chainLegal (hw : ∀ k i j, W.readsFrom k i j → W.writes k i) : Legal W s c where
  reads := hL.reads
  apart := by
    intro k i j hi hj hne
    obtain ⟨C, hCm, hiC⟩ := ((hC k).cover i).mp hi
    obtain ⟨D, hDm, hjD⟩ := ((hC k).cover j).mp hj
    by_cases hCD : C = D
    · subst hCD
      have hp := chain_follows hC hsc hl hL hCm
      have : Std.Symm (fun a b => c a < s b ∨ c b < s a) := ⟨fun a b h => h.symm⟩
      have hp' : C.Pairwise (fun a b => c a < s b ∨ c b < s a) := hp.imp (fun h => Or.inl h.1)
      exact hp'.forall hiC hjD hne
    · rcases hL.outer hCm hDm hCD with hb | hb
      · exact .inl (lt_of_before hC hsc hl hL hCm hDm hb hiC hjD)
      · exact .inr (lt_of_before hC hsc hl hL hDm hCm hb hjD hiC)
  others := by
    intro k i j x hr hx hxi hxj
    obtain ⟨C, hCm, hiC⟩ := ((hC k).cover i).mp (hw k i j hr)
    obtain ⟨D, hDm, hxD⟩ := ((hC k).cover x).mp hx
    by_cases hCD : C = D
    · subst hCD
      obtain ⟨l₁, l₂, he⟩ := List.append_of_mem hiC
      have hp := chain_follows hC hsc hl hL hCm
      rw [he] at hxD
      rcases List.mem_append.mp hxD with hx₁ | hx₂
      · rw [he] at hp
        exact .inl ((List.pairwise_append.mp hp).2.2 x hx₁ i List.mem_cons_self).1
      · have hx₂ := (List.mem_cons.mp hx₂).resolve_left hxi
        exact .inr (reader_lt_later hC hsc hl hL hCm he hr hx₂ hxj)
    · rcases hL.outer hCm hDm hCD with hb | hb
      · exact .inr (reader_lt_chain hC hsc hl hL hCm hDm hb hr hiC hxD)
      · exact .inl (lt_of_before hC hsc hl hL hDm hCm hb hxD hiC)

end ToLegal

/-- No writer of the key lies between `a` and `b`. -/
def Adjacent (W : Workload κ ι) (s c : ι → E) (k : κ) (a b : ι) : Prop :=
  c a < s b ∧ ∀ x, W.writes k x → x ≠ a → x ≠ b → c x < s a ∨ c b < s x

/-- A read-modify-write directly follows the version it read. -/
theorem Legal.adjacent (hL : Legal W s c) (hsc : ∀ k x, W.writes k x → s x < c x) {k : κ} {a b : ι}
    (hb : W.writes k b) (hr : W.readsFrom k a b) : Adjacent W s c k a b := by
  refine ⟨hL.reads hr, fun x hx hxa hxb => ?_⟩
  rcases hL.others hr hx hxa hxb with h | h
  · exact .inl h
  · rcases hL.apart hb hx (Ne.symm hxb) with h' | h'
    · exact .inr h'
    · have := hsc k x hx
      exact absurd h (by order)

/-- A version has at most one adjacent successor. -/
theorem Adjacent.successor_unique (hsc : ∀ k x, W.writes k x → s x < c x) {k : κ} {a b b' : ι}
    (ha : W.writes k a)
    (hb : W.writes k b) (hb' : W.writes k b') (h : Adjacent W s c k a b)
    (h' : Adjacent W s c k a b') : b = b' := by
  by_contra hne
  have hlt : ∀ {b b'}, W.writes k b → W.writes k b' → Adjacent W s c k a b →
      Adjacent W s c k a b' → b ≠ b' →
      c b < s b' := by
    intro b b' hb hb' h h' hne
    have h₁ := hsc k a ha
    have h₂ := hsc k b' hb'
    have h₃ := h'.1
    have hba : b' ≠ a := fun he => by subst he; order
    rcases h.2 b' hb' hba (Ne.symm hne) with h | h
    · order
    · exact h
  have h₁ := hlt hb hb' h h' hne
  have h₂ := hlt hb' hb h' h (Ne.symm hne)
  have h₃ := hsc k b hb
  have h₄ := hsc k b' hb'
  order

/-- A version has at most one adjacent predecessor. -/
theorem Adjacent.predecessor_unique (hsc : ∀ k x, W.writes k x → s x < c x) {k : κ} {a a' b : ι}
    (ha : W.writes k a)
    (ha' : W.writes k a') (hb : W.writes k b) (h : Adjacent W s c k a b)
    (h' : Adjacent W s c k a' b) : a = a' := by
  by_contra hne
  have hlt : ∀ {a a'}, W.writes k a' → Adjacent W s c k a b → Adjacent W s c k a' b → a ≠ a' →
      c a' < s a := by
    intro a a' ha' h h' hne
    have h₁ := hsc k b hb
    have h₂ := hsc k a' ha'
    have h₃ := h'.1
    have hab : a' ≠ b := fun he => by subst he; order
    rcases h.2 a' ha' (Ne.symm hne) hab with h | h
    · exact h
    · order
  have h₁ := hlt ha' h h' hne
  have h₂ := hlt ha h' h (Ne.symm hne)
  have h₃ := hsc k a ha
  have h₄ := hsc k a' ha'
  order

/-- Consecutive intervals never close a chain. -/
theorem not_closed {R : ι → ι → Prop} {C : List ι} (h : C.IsChain R)
    (hR : ∀ a b, R a b → Follows s c a b) {a b : ι}
    (ha : C.getLast? = some a) (hb : C.head? = some b) : ¬ R a b := by
  intro hab
  have h₁ := le_last (pairwise_follows h (fun x y _ _ => hR x y)) (List.mem_of_head? hb) ha
  obtain ⟨h₂, h₃⟩ := hR a b hab
  order

section ToChains

variable (hC : Chaining W link chains) (hsc : ∀ k x, W.writes k x → s x < c x) (hL : Legal W s c)
  (hadj : ∀ k a b, W.writes k a → W.writes k b → link k a b → Adjacent W s c k a b)
include hC hsc hL hadj

omit hL in
/-- A writer outside a chain is before all of it as soon as it is before a part. -/
theorem before_all {k : κ} {C : List ι} (h : C ∈ chains k) {x : ι} (hx : W.writes k x) (hxC : x ∉ C)
    {a y : ι} (ha : a ∈ C) (hy : y ∈ C) (hlt : c x < s a) : c x < s y := by
  have hside : C.IsChain (fun a b => c x < s a ↔ c x < s b) := by
    refine ((hC _).isChain h).imp_of_mem_imp (fun a b ha hb hab => ?_)
    have hwa := hC.writes_of_mem h ha
    have hwb := hC.writes_of_mem h hb
    obtain ⟨h₁, h₂⟩ := hadj k a b hwa hwb hab
    have hxa : x ≠ a := fun he => hxC (he ▸ ha)
    have hxb : x ≠ b := fun he => hxC (he ▸ hb)
    have hsa := hsc k a hwa
    have hsb := hsc k b hwb
    have hsx := hsc k x hx
    refine ⟨fun hl => by order, fun hl => ?_⟩
    rcases h₂ x hx hxa hxb with h' | h'
    · exact h'
    · exact absurd hl (by order)
  let side : ι → ι → Prop := fun a b => c x < s a ↔ c x < s b
  have : Trans side side side := ⟨fun h₁ h₂ => Iff.trans h₁ h₂⟩
  have : Std.Symm side := ⟨fun _ _ h => Iff.symm h⟩
  have hp : C.Pairwise side := List.isChain_iff_pairwise.mp hside
  have hall : ∀ ⦃a⦄, a ∈ C → ∀ ⦃b⦄, b ∈ C → side a b :=
    List.Pairwise.forall_of_forall (fun a _ => show side a a from Iff.rfl) hp
  exact (hall ha hy).mp hlt

/-- Chains of adjacent versions do not interleave. -/
theorem apart_of_ne {k : κ} {C D : List ι} (h : C ∈ chains k) (h' : D ∈ chains k) (hne : C ≠ D)
    {a x : ι} (ha : a ∈ C) (hx : x ∈ D) (hlt : c a < s x) :
    ∀ {b y}, b ∈ C → y ∈ D → c b < s y := by
  have hdis : ∀ {z}, z ∈ C → z ∈ D → False := fun hz hz' => hne ((hC k).eq_of_mem h h' hz hz')
  intro b y hb hy
  have h₁ : c a < s y := before_all hC hsc hadj h' (hC.writes_of_mem h ha) (hdis ha) hx hy hlt
  rcases hL.apart (hC.writes_of_mem h hb) (hC.writes_of_mem h' hy) (fun he => hdis hb (he ▸ hy))
    with hlt' | hlt'
  · exact hlt'
  · have h₂ : c y < s a :=
      before_all hC hsc hadj h (hC.writes_of_mem h' hy) (fun hz => hdis hz hy) hb ha hlt'
    have hsa := hsc k a (hC.writes_of_mem h ha)
    have hsy := hsc k y (hC.writes_of_mem h' hy)
    exact absurd h₁ (by order)

omit hadj in
/-- A chain that precedes another one does so with all its readers. -/
theorem before_of_lt {k : κ} {C D : List ι} (h : C ∈ chains k) (h' : D ∈ chains k)
    (hlt : ∀ {b y}, b ∈ C → y ∈ D → c b < s y) : Before W s c k C D := by
  intro a b ha hb
  have haC : a ∈ C := List.mem_of_getLast? ha
  have hbD : b ∈ D := List.mem_of_head? hb
  have hab : c a < s b := hlt haC hbD
  have hsa := hsc k a (hC.writes_of_mem h haC)
  have hsb := hsc k b (hC.writes_of_mem h' hbD)
  refine ⟨hab, fun r hr => ?_⟩
  by_cases hrb : b = r
  · exact hrb ▸ hsb
  · have hne : b ≠ a := fun he => by subst he; order
    rcases hL.others hr (hC.writes_of_mem h' hbD) hne hrb with h₁ | h₁
    · order
    · exact h₁

/-- A legal workload orders its chains. -/
theorem chainLegal_of_adjacent : ChainLegal W chains s c where
  reads := hL.reads
  inner := by
    intro k C l₁ a b l₂ r h he hr hne
    have haC : a ∈ C := by simp [he]
    have hbC : b ∈ C := by simp [he]
    have hwa := hC.writes_of_mem h haC
    have hwb := hC.writes_of_mem h hbC
    have hlink := List.isChain_iff_forall_rel_of_append_cons_cons.mp ((hC _).isChain h) he
    have hlt := (hadj k a b hwa hwb hlink).1
    have hsa := hsc k a hwa
    have hsb := hsc k b hwb
    have hba : b ≠ a := fun he => by subst he; order
    rcases hL.others hr hwb hba (Ne.symm hne) with h₁ | h₁
    · order
    · exact h₁
  outer := by
    intro k C D h h' hne
    obtain ⟨a, ha⟩ := List.exists_mem_of_ne_nil C ((hC k).nonempty h)
    obtain ⟨x, hx⟩ := List.exists_mem_of_ne_nil D ((hC k).nonempty h')
    have hax : a ≠ x := fun he => hne ((hC k).eq_of_mem h h' ha (he ▸ hx))
    rcases hL.apart (hC.writes_of_mem h ha) (hC.writes_of_mem h' hx) hax with hlt | hlt
    · exact .inl (before_of_lt hC hsc hL h h' (apart_of_ne hC hsc hL hadj h h' hne ha hx hlt))
    · exact .inr (before_of_lt hC hsc hL h' h
        (apart_of_ne hC hsc hL hadj h' h (Ne.symm hne) hx ha hlt))

end ToChains

end Versions
