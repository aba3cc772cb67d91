import Viper.Lib.Precedence
import Viper.Lib.Versions

/-!
# Dependency graphs of transactions

A dependency `D i j` says that `i` commits before `j` begins, an anti-dependency
`A i j` that `i` begins before `j` commits. Begin and commit points with these
properties exist unless some cycle of dependencies and anti-dependencies has no
two anti-dependencies in a row: with the anti-dependencies glued to the
dependencies in front of them, no cycle is left.
-/
namespace Dependencies

open Precedence Versions

section Graph

variable {E ι : Type}

/-- A dependency, and possibly one anti-dependency behind it. -/
def Hop (D A : ι → ι → Prop) (i j : ι) : Prop := ∃ k, D i k ∧ (k = j ∨ A k j)

theorem Hop.mono {D D' A A' : ι → ι → Prop} (hD : ∀ i j, D i j → D' i j)
    (hA : ∀ i j, A i j → A' i j) {i j : ι} (h : Hop D A i j) : Hop D' A' i j := by
  obtain ⟨k, hik, hkj⟩ := h
  exact ⟨k, hD i k hik, hkj.imp_right (hA k j)⟩

/-- Where dependencies and anti-dependencies go up, hops lead to later commits. -/
theorem Hop.lt [LinearOrder E] {s c : ι → E} {D A : ι → ι → Prop}
    (hD : ∀ i k, D i k → c i < s k ∧ s k < c k)
    (hA : ∀ i j, A i j → s i < c j) {i j : ι} (h : Hop D A i j) : c i < c j := by
  obtain ⟨k, hik, hkj⟩ := h
  obtain ⟨hlt, hk⟩ := hD i k hik
  cases hkj with
  | inl he => exact he ▸ hlt.trans hk
  | inr ha => exact hlt.trans (hA k j ha)

/-- Begin and commit points of different transactions are different points. -/
structure Endpoints (s c : ι → E) : Prop where
  begin_inj : ∀ i j, s i = s j → i = j
  commit_inj : ∀ i j, c i = c j → i = j
  apart : ∀ i j, s i ≠ c j

/-- The points of the transactions in `B`, with an edge from one to a later one. -/
inductive Step (B : ι → Prop) (s c : ι → E) (D A : ι → ι → Prop) : E → E → Prop
  | begins {i} : B i → Step B s c D A (s i) (c i)
  | depends {i j} : D i j → Step B s c D A (c i) (s j)
  | anti {i j} : A i j → Step B s c D A (s i) (c j)

variable {B : ι → Prop} {s c : ι → E} {D A : ι → ι → Prop}

theorem Step.from_commit (h : Endpoints s c) {i : ι} {x : E} (hx : Step B s c D A (c i) x) :
    ∃ k, x = s k ∧ D i k := by
  generalize hy : c i = y at hx
  cases hx with
  | begins _ => exact absurd hy.symm (h.apart _ _)
  | @depends i' k hd =>
    have hi := h.commit_inj _ _ hy
    exact ⟨k, rfl, hi ▸ hd⟩
  | anti _ => exact absurd hy.symm (h.apart _ _)

theorem Step.from_begin (h : Endpoints s c) {k : ι} {x : E} (hx : Step B s c D A (s k) x) :
    ∃ j, x = c j ∧ (k = j ∨ A k j) := by
  generalize hy : s k = y at hx
  cases hx with
  | @begins j _ => exact ⟨j, rfl, .inl (h.begin_inj _ _ hy)⟩
  | depends _ => exact absurd hy (h.apart _ _)
  | @anti k' j ha =>
    have hk := h.begin_inj _ _ hy
    exact ⟨j, rfl, .inr (hk ▸ ha)⟩

/-- Points on a path from a commit point: after hops, or after hops and a
dependency. -/
theorem hops_of_path (h : Endpoints s c) {i : ι} {x : E}
    (hp : Relation.TransGen (Step B s c D A) (c i) x) :
    (∃ j, x = c j ∧ Relation.TransGen (Hop D A) i j) ∨
      ∃ j k, x = s k ∧ Relation.ReflTransGen (Hop D A) i j ∧ D j k := by
  induction hp with
  | single hx =>
    obtain ⟨k, rfl, hd⟩ := hx.from_commit h
    exact .inr ⟨i, k, rfl, .refl, hd⟩
  | tail _ hx ih =>
    cases ih with
    | inl hc =>
      obtain ⟨j, rfl, hj⟩ := hc
      obtain ⟨k, rfl, hd⟩ := hx.from_commit h
      exact .inr ⟨j, k, rfl, hj.to_reflTransGen, hd⟩
    | inr hs =>
      obtain ⟨j, k, rfl, hj, hd⟩ := hs
      obtain ⟨j', rfl, hk⟩ := hx.from_begin h
      exact .inl ⟨j', rfl, .tail' hj ⟨k, hd, hk⟩⟩

theorem path_of_hop (hB : ∀ i k, D i k → B k) {i j : ι} (h : Hop D A i j) :
    Relation.TransGen (Step B s c D A) (c i) (c j) := by
  obtain ⟨k, hd, hk⟩ := h
  cases hk with
  | inl he =>
    subst he
    exact .tail (.single (.depends hd)) (.begins (hB i k hd))
  | inr ha => exact .tail (.single (.depends hd)) (.anti ha)

theorem path_of_hops (hB : ∀ i k, D i k → B k) {i j : ι} (h : Relation.TransGen (Hop D A) i j) :
    Relation.TransGen (Step B s c D A) (c i) (c j) := by
  induction h with
  | single hop => exact path_of_hop hB hop
  | tail _ hop ih => exact ih.trans (path_of_hop hB hop)

/-- The points have no cycle iff the hops have none. -/
theorem acyclic_iff (h : Endpoints s c) (hB : ∀ i k, D i k → B k) :
    Acyclic (Step B s c D A) ↔ Acyclic (Hop D A) := by
  constructor
  · exact fun ha i hi => ha (c i) (path_of_hops hB hi)
  · intro ha
    have hcommit : ∀ i, ¬ Relation.TransGen (Step B s c D A) (c i) (c i) := by
      intro i hi
      cases hops_of_path h hi with
      | inl hc =>
        obtain ⟨j, hij, hj⟩ := hc
        obtain rfl := h.commit_inj _ _ hij
        exact ha i hj
      | inr hs =>
        obtain ⟨_, k, hik, _⟩ := hs
        exact h.apart k i hik.symm
    intro x hx
    -- a cycle through a begin point goes on to a commit point
    obtain ⟨y, hxy, hyx⟩ := Relation.TransGen.head'_iff.mp hx
    cases hxy with
    | begins _ => exact hcommit _ (.tail' hyx (.begins ‹_›))
    | anti ha' => exact hcommit _ (.tail' hyx (.anti ha'))
    | depends hd => exact hcommit _ hx

end Graph

section VersionOrder

variable {ι κ : Type} (W : Workload κ ι)

/-- A strict total order on the writers of every key. -/
structure VersionOrder (lt : κ → ι → ι → Prop) : Prop where
  writes : ∀ k i j, lt k i j → W.writes k i ∧ W.writes k j
  irrefl : ∀ k i, ¬ lt k i i
  trans : ∀ k i j l, lt k i j → lt k j l → lt k i l
  total : ∀ k i j, W.writes k i → W.writes k j → i ≠ j → lt k i j ∨ lt k j i

/-- Write- and read-dependencies, on top of others. -/
inductive Depends (lt : κ → ι → ι → Prop) (D : ι → ι → Prop) : ι → ι → Prop
  | other {i j} : D i j → Depends lt D i j
  | ww {k i j} : lt k i j → Depends lt D i j
  | wr {k i j} : W.readsFrom k i j → Depends lt D i j

/-- A reader of a version precedes the transactions that install later ones. -/
inductive AntiDepends (lt : κ → ι → ι → Prop) (A : ι → ι → Prop) : ι → ι → Prop
  | other {i j} : A i j → AntiDepends lt A i j
  | rw {k i j x} : W.readsFrom k i j → lt k i x → x ≠ j → AntiDepends lt A j x

variable {W} {E : Type} [LinearOrder E] {s c : ι → E}

/-- The order in which the writers of a key commit. -/
def commitOrder (W : Workload κ ι) (s c : ι → E) (k : κ) (i j : ι) : Prop :=
  W.writes k i ∧ W.writes k j ∧ c i < s j

theorem versionOrder_commitOrder (hsc : ∀ k i, W.writes k i → s i < c i) (h : Legal W s c) :
    VersionOrder W (commitOrder W s c) where
  writes _ _ _ hij := ⟨hij.1, hij.2.1⟩
  irrefl k i hi := lt_asymm hi.2.2 (hsc k i hi.1)
  trans k _ j _ hij hjl := ⟨hij.1, hjl.2.1, hij.2.2.trans ((hsc k j hjl.1).trans hjl.2.2)⟩
  total _ _ _ hi hj hne :=
    (h.apart hi hj hne).imp (fun hlt => ⟨hi, hj, hlt⟩) (fun hlt => ⟨hj, hi, hlt⟩)

/-- In a legal workload every dependency leads from a commit to a later begin. -/
theorem Depends.lt (h : Legal W s c) {D : ι → ι → Prop} (hD : ∀ i j, D i j → c i < s j) {i j : ι}
    (hij : Depends W (commitOrder W s c) D i j) : c i < s j := by
  cases hij with
  | other hd => exact hD i j hd
  | ww hlt => exact hlt.2.2
  | wr hr => exact h.reads hr

theorem AntiDepends.lt (hsc : ∀ k i, W.writes k i → s i < c i) (h : Legal W s c) {A : ι → ι → Prop}
    (hA : ∀ i j, A i j → s i < c j) {i j : ι}
    (hij : AntiDepends W (commitOrder W s c) A i j) : s i < c j := by
  cases hij with
  | other ha => exact hA i j ha
  | @rw k w _ _ hr hlt hne =>
    have hi := hsc k w hlt.1
    have hx := hsc k j hlt.2.1
    have hwj : j ≠ w := by
      intro he
      subst he
      exact lt_asymm hlt.2.2 hi
    cases h.others hr hlt.2.1 hwj hne with
    | inl hlt' => exact absurd (hlt.2.2.trans (hx.trans hlt')) (lt_asymm hi)
    | inr hlt' => exact hlt'

/-- Points that go up along the dependencies of a version order are a legal workload. -/
theorem legal_of_versionOrder {lt : κ → ι → ι → Prop} (hv : VersionOrder W lt) {D A : ι → ι → Prop}
    (hw : ∀ k i j, W.readsFrom k i j → W.writes k i) (hD : ∀ i j, Depends W lt D i j → c i < s j)
    (hA : ∀ i j, AntiDepends W lt A i j → s i < c j) : Legal W s c where
  apart hi hj hne :=
    (hv.total _ _ _ hi hj hne).imp (fun h => hD _ _ (.ww h)) (fun h => hD _ _ (.ww h))
  reads hr := hD _ _ (.wr hr)
  others hr hx hxi hxj := (hv.total _ _ _ hx (hw _ _ _ hr) hxi).imp (fun h => hD _ _ (.ww h))
    (fun h => hA _ _ (.rw hr h hxj))

end VersionOrder

end Dependencies
