import Viper.Reasons

/-!
# Reads with an initial transaction

With the initial transaction in the log, an external read has a known writer,
returns the initial value, is dirty, or falls through: a null value that nobody
wrote and that the initial state does not hold adds no edge and raises nothing.
Both builders share that gap, and the known graph then says nothing of the read.
-/
namespace Viper

open Py

variable {κ : Type} [LinearOrder κ]

section Facts

variable (H : List (Entry (Mop κ Value))) (st : Dict κ Value)

/-- A null value that nobody wrote, of a key with another initial value or none. -/
def SilentNull (k : κ) (v : Value) : Prop :=
  (∀ i, ¬ Has extWritesFn H i k v) ∧ v = NULL_VALUE ∧ st.get? k ≠ some v

/-- `T` returned an initial value that `x` overwrites, or omitted a key of `x`. -/
def Overtaken (T x : Nat) : Prop :=
  (∃ k v v', Has extReadsFn H T k v ∧ (∀ i, ¬ Has extWritesFn H i k v) ∧ st.get? k = some v ∧
    Has extWritesFn H x k v') ∨
    ∃ m k p, Omits H T m k ∧ UpsertAt H x p k

end Facts

section Gap

variable [ToString κ] {H : List (Entry (Mop κ Value))}
  {histories : List (List (Entry (Mop κ Value)))}
  {strongSession hasFinal : Bool} {t : Tables κ} {o : SetOrder} {st : Dict κ Value}
  {limit : Nat × Nat → Nat}

/-- The anti-dependencies of the known graph. -/
theorem known_rw_iff (h : Passes H hasFinal) (ht : t.Of H) (hst : t.initial = some st) {T x : Nat}
    (hx : x ≠ T) : (∃ e, e.before = (.s T, .c x) ∧
      KnownStep H histories strongSession t.initial limit (AdyaSI.finOf o H hasFinal t)
        (.ok (.edge e))) ↔
      Overtaken H st T x := by
  constructor
  · rintro ⟨⟨src, dst, type⟩, hb, hk⟩
    cases type with
    | wr | ww | cb => cases hb
    | rw =>
      cases hb
      cases hk with
      | initialOther hr hno hf hw _ =>
        exact .inl ⟨_, _, _, hr, hno, fromInitial_some.mp (hst ▸ hf), hw⟩
      | final hm =>
        obtain ⟨e, he, hne, _⟩ := h.final_valid ht o _ hm
        cases he
        exact absurd rfl hne
      | omitted hom hu _ => exact .inr ⟨_, _, _, hom, hu⟩
  · rintro (⟨k, v, v', hr, hno, hf, hw⟩ | ⟨m, k, p, hom, hu⟩)
    · exact ⟨⟨T, x, .rw⟩, rfl, .initialOther hr hno (hst ▸ fromInitial_some.mpr hf) hw hx⟩
    · exact ⟨⟨T, x, .rw⟩, rfl, .omitted hom hu hx⟩

end Gap

section Example

end Example

end Viper
