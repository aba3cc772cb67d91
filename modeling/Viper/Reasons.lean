import Viper.ChainAgreement
import Viper.FinalHistory

/-!
# What stops the register builders

A builder rejects a history for a dirty read, for an own upsert of an omitted
key, or, over chains, for diverging versions. Everything else that stops it is an
assertion. `Passes` lists what the assertions ask for; a history on which both
builders return has all of it.
-/
namespace Viper

open Py

variable {κ : Type} [LinearOrder κ]

section Facts

variable (H : List (Entry (Mop κ Value))) (st : Dict κ Value)

def DirtyRead : Prop :=
  ∃ j k v, Has extReadsFn H j k v ∧ (∀ i, ¬ Has extWritesFn H i k v) ∧ st.get? k ≠ some v ∧
    v ≠ NULL_VALUE

/-- The last transaction starts with a query whose records pass the assertions of
`process_final_state`. -/
def FinalReadable : Prop :=
  0 < H.length - 1 ∧ (∃ ds, finalDicts H = .ok ds) ∧ ∀ k v, AdyaSIChain.FinalValue H k v →
    (∃ i, i ≠ H.length - 1 ∧ Has extWritesFn H i k v ∧ ∀ i', Has extWritesFn H i' k v → i' = i) ∨
      (∀ i, ¬ Has extWritesFn H i k v) ∧ ∀ x v', Has extWritesFn H x k v' → x = H.length - 1

/-- Tf begins after every other transaction has committed. -/
def LastBegins [LinearOrder Event] : Prop :=
  ∀ i, i < H.length - 1 → Event.c i < Event.s (H.length - 1)

/-- The final state shows latest versions: Tf begins last, and what it shows was
written after all other versions of the key. -/
structure FinalAllows [LinearOrder Event] : Prop where
  last : LastBegins H
  latest : ∀ k v i, AdyaSIChain.FinalValue H k v → Has extWritesFn H i k v →
    ∀ y v', Has extWritesFn H y k v' → y ≠ i → y ≠ H.length - 1 → Event.c y < Event.s i

/-- What the assertions of both builders ask of a history. -/
structure Passes (hasFinal : Bool) : Prop where
  loaded : Loaded H
  /-- records between two bounds, no failed delete, no failed insert of a key that was
  not accessed before, no version written twice by one transaction -/
  summaries : ∀ i txn, TxnAt H i txn → (∃ m, extWritesFn txn = .ok m) ∧
    (∃ m, extReadsFn txn = .ok m) ∧ (∃ m, allUpsertFn txn = .ok m) ∧ ∃ m, allWritesFn txn = .ok m
  upserts : ∀ i j i' j' k v, HasAt allUpsertFn H i j k v → HasAt allUpsertFn H i' j' k v → i = i'
  writes : ∀ i j i' j' k v, HasAt allWritesFn H i j k v → HasAt allWritesFn H i' j' k v → i = i'
  oneWriter : ∀ i i' j k v, Has extReadsFn H j k v → Has extWritesFn H i k v →
    Has extWritesFn H i' k v → i = i'
  apart : ∀ i k v, Has extReadsFn H i k v → ¬ Has extWritesFn H i k v
  values : ∀ q m k1 k2 rs dead, RangeAt H q m k1 k2 rs dead →
    ∀ item ∈ rs ++ dead, item.val.isInt = true
  final : hasFinal = true → FinalReadable H

end Facts

variable {H : List (Entry (Mop κ Value))} {histories : List (List (Entry (Mop κ Value)))}
  {strongSession hasFinal : Bool} {t : Tables κ} {o : SetOrder} {st : Dict κ Value}

section Assertions

/-- A readable final state plays valid edges only, and no anti-dependency. -/
theorem finalScript_valid (ht : t.Of H) (hF : FinalReadable H) (o : SetOrder) :
    ∀ x ∈ finalScript o H t.extWrites,
      ∃ e : Edge, x = .ok (.edge e) ∧ e.type ≠ .rw ∧ (Cmd.edge e).Valid H.length := by
  obtain ⟨hpos, ⟨⟨d₁, d₂⟩, hd⟩, hvals⟩ := hF
  have hX := extIndex_spec ht.extWrites
  have hread : ∀ k v, AdyaSIChain.FinalValue H k v →
      ∀ x ∈ finalReadScript o t.extWrites (H.length - 1) (k, v),
        ∃ e : Edge, x = .ok (.edge e) ∧ e.type ≠ .rw ∧ (Cmd.edge e).Valid H.length := by
    intro k v hv x hx
    rcases hvals k v hv with ⟨i, hne, hi, hone⟩ | ⟨hno, hlast⟩
    · rcases (mem_finalReadScript_of_writer hX o hi hone).mp hx with
        rfl | ⟨y, v', hy, hyi, _, rfl⟩
      · exact ⟨_, rfl, by simp, hne, by simp only; omega, hi.lt.2⟩
      · exact ⟨_, rfl, by simp, hyi, Nat.pos_iff_ne_zero.mp hi.lt.1, hy.lt.2⟩
    · rcases (mem_finalReadScript_of_unwritten hX o hno).mp hx with
        rfl | ⟨⟨y, v', hy, _, hyf⟩, _⟩
      · exact ⟨_, rfl, by simp, by simp only; omega, by simp only; omega, by simp only; omega⟩
      · exact absurd (hlast y v' hy) hyf
  intro x hx
  cases (mem_finalScript hd).mp hx with
  | inl h =>
    obtain ⟨k, v, hv, hx⟩ := h
    exact hread k v ⟨d₁, d₂, hd, hv⟩ x hx
  | inr h =>
    obtain ⟨i, hi, rfl⟩ := h
    exact ⟨_, rfl, by simp, by simp only; omega, by simp only; omega, by simp only; omega⟩

theorem Passes.final_valid (h : Passes H hasFinal) (ht : t.Of H) (o : SetOrder) :
    ∀ x ∈ AdyaSI.finOf o H hasFinal t,
      ∃ e : Edge, x = .ok (.edge e) ∧ e.type ≠ .rw ∧ (Cmd.edge e).Valid H.length := by
  cases hasFinal with
  | false => exact fun x hx => by cases hx
  | true => exact finalScript_valid ht (h.final rfl) o

theorem Passes.tables (h : Passes H hasFinal) {initial : Option (Dict κ Value)}
    (hi : initialState H = .ok initial) :
    ∃ t : Tables κ, t.Of H ∧ ∃ A, allIndex H allWritesFn = .ok A := by
  obtain ⟨X, hX⟩ := extIndex_total h.loaded (fun i txn ht => (h.summaries i txn ht).1)
  obtain ⟨R, hR⟩ := extIndex_total h.loaded (fun i txn ht => (h.summaries i txn ht).2.1)
  obtain ⟨ups, hups⟩ :=
    allIndex_total h.loaded (fun i txn ht => (h.summaries i txn ht).2.2.1) h.upserts
  obtain ⟨A, hA⟩ := allIndex_total h.loaded (fun i txn ht => (h.summaries i txn ht).2.2.2) h.writes
  obtain ⟨K, hK⟩ := allKeys_total h.loaded
  obtain ⟨qs, hqs⟩ := queries_total h.loaded
  exact ⟨⟨X, R, initial, ups, K, qs⟩, ⟨hX, hR, hi, hups, hK, hqs⟩, A, hA⟩

/-- A history that passes is built or rejected by both builders. -/
theorem Passes.checked [ToString κ] (h : Passes H hasFinal) {initial : Option (Dict κ Value)}
    (hi : initialState H = .ok initial) (hS : SessionsOf H histories) (o : SetOrder)
    (strongSession : Bool) :
    ∃ t, AdyaSIChain.Checked o H histories strongSession hasFinal t := by
  obtain ⟨t, ht, hA⟩ := h.tables hi
  refine ⟨t, ?_, hA, h.values⟩
  refine AdyaSI.checked_of_apart ht o strongSession hasFinal h.oneWriter h.apart ?_ hS ?_
  · rintro q m k1 k2 rs dead ⟨txn, fin, htxn, hj⟩
    obtain ⟨m', hm'⟩ := (h.summaries q txn htxn).2.1
    have ha := admissible_of_extReadsFn hm' (List.mem_of_getElem? hj)
    exact assertReturned_eq_ok.mpr (fun item hi => inBetween_of_assertBounds (ha item hi))
  · intro x hx
    obtain ⟨e, he, _, hv⟩ := h.final_valid ht o x hx
    exact ⟨_, he, hv⟩

/-- Well-formed histories pass. -/
theorem WellFormed.passes (h : WellFormed H)
    (hv : ∀ q m k1 k2 rs dead, RangeAt H q m k1 k2 rs dead →
      ∀ item ∈ rs ++ dead, item.val.isInt = true)
    (hF : hasFinal = true → FinalReadable H) : Passes H hasFinal := by
  obtain ⟨ups, hups⟩ := upserts_total h.loaded h.unique
  obtain ⟨A, hA⟩ := writes_total h.loaded h.unique
  refine ⟨h.loaded, fun i txn ht => ?_, fun i j i' j' k v => HasAt.unique hups,
    fun i j i' j' k v => HasAt.unique hA,
    fun i i' j k v _ hi hi' => h.unique.ext hi hi', h.apart, hv, hF⟩
  exact ⟨extWritesFn_total (h.admissible i txn ht), extReadsFn_total (h.admissible i txn ht),
    allIndex_each hups ht, allIndex_each hA ht⟩

end Assertions

section Returned

omit [LinearOrder κ] in
theorem isInt_of_convertRs2dict [LinearOrder κ] {rs : List (Record κ Value)} {d : Dict κ Value}
    (h : convertRs2dict rs = .ok d) : ∀ item ∈ rs, item.val.isInt = true := by
  intro item hi
  obtain ⟨_, _, hstep⟩ := foldlM_each h item hi
  rw [bind_eq_ok] at hstep
  obtain ⟨_, hint, _⟩ := hstep
  exact require_eq_ok.mp hint

variable [ToString κ]

end Returned

section Final

variable [ToString κ]

/-- The final state only adds to what is known. -/
theorem knownStep_final_iff {initial : Option (Dict κ Value)} {limit : Nat × Nat → Nat}
    {fin : Script} {x : Except Err Cmd} :
    KnownStep H histories strongSession initial limit fin x ↔
      KnownStep H histories strongSession initial limit [] x ∨ x ∈ fin := by
  constructor
  · intro hx
    cases hx with
    | session hs hc => exact .inl (.session hs hc)
    | first hi hn => exact .inl (.first hi hn)
    | read hw hr => exact .inl (.read hw hr)
    | initialRead hr hno hf => exact .inl (.initialRead hr hno hf)
    | initialOther hr hno hf hw hne => exact .inl (.initialOther hr hno hf hw hne)
    | dirtyRead hr hno hf hn => exact .inl (.dirtyRead hr hno hf hn)
    | final hm => exact .inr hm
    | omitted hom hu hne => exact .inl (.omitted hom hu hne)
    | ownUpsert hom hu hp => exact .inl (.ownUpsert hom hu hp)
  · rintro (hx | hx)
    · cases hx with
      | session hs hc => exact .session hs hc
      | first hi hn => exact .first hi hn
      | read hw hr => exact .read hw hr
      | initialRead hr hno hf => exact .initialRead hr hno hf
      | initialOther hr hno hf hw hne => exact .initialOther hr hno hf hw hne
      | dirtyRead hr hno hf hn => exact .dirtyRead hr hno hf hn
      | final hm => cases hm
      | omitted hom hu hne => exact .omitted hom hu hne
      | ownUpsert hom hu hp => exact .ownUpsert hom hu hp
    · exact .final hx

theorem explained_final_iff [LinearOrder Event] {initial : Option (Dict κ Value)}
    {limit : Nat × Nat → Nat} {fin : Script} :
    Explained H (KnownStep H histories strongSession initial limit fin) ↔
      Explained H (KnownStep H histories strongSession initial limit []) ∧
      ∀ e, .ok (.edge e) ∈ fin → e.Holds := by
  constructor
  · intro h
    exact ⟨⟨h.begins, h.first, fun e he => h.known e (knownStep_final_iff.mpr (.inl he)), h.legal⟩,
      fun e he => h.known e (.final he)⟩
  · rintro ⟨h, hfin⟩
    exact ⟨h.begins, h.first,
      fun e he => (knownStep_final_iff.mp he).elim (h.known e) (hfin e), h.legal⟩

omit [ToString κ] in
/-- The edges of a readable final state hold exactly when it shows latest versions. -/
theorem final_holds_iff [LinearOrder Event] (ht : t.Of H) (hF : FinalReadable H) :
    (∀ e, .ok (.edge e) ∈ finalScript o H t.extWrites → e.Holds) ↔ FinalAllows H := by
  have hX := extIndex_spec ht.extWrites
  obtain ⟨hpos, ⟨⟨d₁, d₂⟩, hd⟩, hvals⟩ := hF
  constructor
  · intro hall
    refine ⟨fun i hi => ?_, fun k v i hv hi y v' hy hyi hyf => ?_⟩
    · exact hall ⟨i, H.length - 1, .cb⟩ ((mem_finalScript hd).mpr (.inr ⟨i, hi, rfl⟩))
    · rcases hvals k v hv with ⟨i', _, hi', hone⟩ | ⟨hno, _⟩
      · obtain rfl := hone i hi
        have hm := (mem_finalReadScript_of_writer (x := .ok _) hX o hi' hone).mpr
          (.inr ⟨y, v', hy, hyi, hyf, rfl⟩)
        obtain ⟨d₁', d₂', hd', hv⟩ := hv
        exact hall ⟨y, i, .ww⟩ ((mem_finalScript hd').mpr (.inl ⟨k, v, hv, hm⟩))
      · exact absurd hi (hno i)
  · intro hallow e he
    rcases (mem_finalScript hd).mp he with ⟨k, v, hv, he⟩ | ⟨i, hi, he⟩
    · rcases hvals k v ⟨d₁, d₂, hd, hv⟩ with ⟨i, hne, hi, hone⟩ | ⟨hno, _⟩
      · rcases (mem_finalReadScript_of_writer hX o hi hone).mp he
          with he | ⟨y, v', hy, hyi, hyf, he⟩
        · cases he
          have hlt := hi.lt.2
          exact hallow.last i (by omega)
        · cases he
          exact hallow.latest k v i ⟨d₁, d₂, hd, hv⟩ hi y v' hy hyi hyf
      · rcases (mem_finalReadScript_of_unwritten hX o hno).mp he with he | ⟨_, he⟩
        · cases he
          exact hallow.last 0 hpos
        · cases he
    · cases he
      exact hallow.last i hi

end Final

section Verdictless

end Verdictless

section Rejected

variable [ToString κ] {msg : String}

end Rejected

end Viper
