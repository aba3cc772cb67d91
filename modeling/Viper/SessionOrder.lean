import Viper.RegisterDecision

/-!
# Weaker demands

Demanding session order only refuses more, and the order in which sets are
iterated never shows in a yes. Both hold for every input: a builder that returns
has evaluated all of its assertions, so it returns again under weaker demands.
-/
namespace Viper

open Py Chains Versions Precedence

variable {κ : Type} [LinearOrder κ] [ToString κ]

section Known

variable {H : List (Entry (Mop κ Value))} {histories : List (List (Entry (Mop κ Value)))}
  {initial : Option (Dict κ Value)}
  {limit : Nat × Nat → Nat} {fin fin' : Script} {strongSession strongSession' : Bool}

theorem KnownStep.mono (hss : strongSession' = true → strongSession = true)
    (hfin : ∀ x ∈ fin', x ∈ fin)
    {x : Except Err Cmd} (h : KnownStep H histories strongSession' initial limit fin' x) :
    KnownStep H histories strongSession initial limit fin x := by
  cases h with
  | session hs hc => exact .session (hss hs) hc
  | first h0 hi => exact .first h0 hi
  | read hw hr => exact .read hw hr
  | initialRead hr hno hf => exact .initialRead hr hno hf
  | initialOther hr hno hf hw hne => exact .initialOther hr hno hf hw hne
  | dirtyRead hr hno hf hn => exact .dirtyRead hr hno hf hn
  | final hx => exact .final (hfin _ hx)
  | omitted hom hu hne => exact .omitted hom hu hne
  | ownUpsert hom hu hp => exact .ownUpsert hom hu hp

omit [ToString κ] in
theorem Explained.mono [LinearOrder Event] {known known' : Except Err Cmd → Prop}
    (h : Explained H known) (hsub : ∀ x, known' x → known x) : Explained H known' where
  begins := h.begins
  first := h.first
  known e he := h.known e (hsub _ he)
  legal := h.legal

end Known

section Iteration

variable (o o' : SetOrder)

theorem SetOrder.iter_singleton {α : Type} (a : α) : o.iter [a] = [a] :=
  List.perm_singleton.mp (o.perm [a])

omit [ToString κ] in
/-- The final state is read the same in every order. -/
theorem mem_finalReadScript_iff (X : Index κ Value) (Tf : Nat) (p : κ × Value)
    (x : Except Err Cmd) :
    x ∈ finalReadScript o X Tf p ↔ x ∈ finalReadScript o' X Tf p := by
  have hmany : ∀ (o : SetOrder) (a b : Nat) (l : List Nat), getIn X p.1 p.2 = a :: b :: l →
      finalReadScript o X Tf p = [.error (.assertion "")] := by
    intro o a b l hl
    have hlen := o.length_iter (getIn X p.1 p.2)
    rw [hl] at hlen
    rw [finalReadScript, hl]
    cases ho : o.iter (a :: b :: l) with
    | nil => simp [ho] at hlen
    | cons c l' =>
      cases l' with
      | nil => simp [ho] at hlen
      | cons d l' => rfl
  cases hl : getIn X p.1 p.2 with
  | nil => simp only [finalReadScript, hl, SetOrder.iter_nil]
  | cons a l =>
    cases l with
    | nil => simp only [finalReadScript, hl, SetOrder.iter_singleton, List.mem_cons, List.mem_map,
        SetOrder.mem_iter]
    | cons b l => rw [hmany o a b l hl, hmany o' a b l hl]

omit [ToString κ] in
theorem mem_finOf_iff (H : List (Entry (Mop κ Value))) (hasFinal : Bool) (t : Tables κ)
    (x : Except Err Cmd) :
    x ∈ AdyaSI.finOf o H hasFinal t ↔ x ∈ AdyaSI.finOf o' H hasFinal t := by
  cases hasFinal with
  | false => rfl
  | true =>
    simp only [AdyaSI.finOf, if_true]
    cases hd : finalDicts H with
    | error e => simp only [finalScript, hd]
    | ok d =>
      obtain ⟨d₁, d₂⟩ := d
      rw [mem_finalScript hd, mem_finalScript hd]
      simp only [mem_finalReadScript_iff o o']

end Iteration

variable {o o' : SetOrder} {H : List (Entry (Mop κ Value))}
  {histories : List (List (Entry (Mop κ Value)))}
  {strongSession strongSession' hasFinal : Bool} {t : Tables κ}

namespace AdyaSI

/-- A builder that returns has passed every assertion. -/
theorem checked_of_ok {G : ArgumentedPolyGraph κ}
    (h : constructGraphFromLog o H histories strongSession hasFinal = .ok G) :
    ∃ t, Checked o H histories strongSession hasFinal t ∧
      Built o H histories strongSession hasFinal t G := by
  obtain ⟨t, ht, hb⟩ := built_of_ok h
  obtain ⟨G', hp, _⟩ := played_of_ok o ht h
  have hreturned :=
    pre_of_queries ht (fun x (hx : x ∈ queriesScript o H t Prod.snd assertReturned) =>
    (play_valid hp x (List.mem_append_right _ hx)).imp fun c hc => hc.1)
  refine ⟨t, ⟨ht, hb.unique, hreturned, ?_, ?_⟩, hb⟩
  · intro c hc
    obtain ⟨c', he, hv⟩ := hb.known _ hc
    cases he
    exact hv
  · intro e he
    obtain ⟨c, hc, _⟩ := hb.known _ he
    cases hc

theorem Checked.mono (hss : strongSession' = true → strongSession = true)
    (h : Checked o H histories strongSession hasFinal t) :
    Checked o' H histories strongSession' hasFinal t where
  tables := h.tables
  unique := h.unique
  returned := h.returned
  valid c hc := h.valid c (hc.mono hss fun x hx => (mem_finOf_iff o' o H hasFinal t x).mp hx)
  rejects e he := h.rejects e (he.mono hss fun x hx => (mem_finOf_iff o' o H hasFinal t x).mp hx)

end AdyaSI

/-- What algorithm 4 accepts, it accepts in every order of iteration, and without session order. -/
theorem algo4_accepts_mono (o o' : SetOrder) (monosat : GraphSat.Oracle)
    (H : List (Entry (Mop κ Value)))
    (histories : List (List (Entry (Mop κ Value)))) (strongSession strongSession' hasFinal : Bool)
    (hss : strongSession' = true → strongSession = true)
    (h : algo4 o monosat H histories strongSession hasFinal = .ok true) :
    algo4 o' monosat H histories strongSession' hasFinal = .ok true := by
  obtain ⟨G, hG, hsat⟩ := algo4_eq_true.mp h
  obtain ⟨t, hc, hb⟩ := AdyaSI.checked_of_ok hG
  obtain ⟨hlin, hex⟩ := (hb.satisfiable_iff hc.tables).mp hsat
  have hsub : ∀ x, KnownStep H histories strongSession' t.initial Prod.snd
      (AdyaSI.finOf o' H hasFinal t) x →
      KnownStep H histories strongSession t.initial Prod.snd (AdyaSI.finOf o H hasFinal t) x := by
    intro x hx
    exact hx.mono hss fun x hx => (mem_finOf_iff o' o H hasFinal t x).mp hx
  have hc' : AdyaSI.Checked o' H histories strongSession' hasFinal t := hc.mono hss
  obtain ⟨b, hb', hiff⟩ := hc'.verdict monosat
  rw [hb', hiff.mpr ⟨?_, hlin, hex.mono hsub⟩]
  intro e he
  obtain ⟨c, hc₀, _⟩ := hb.known _ (hsub _ he)
  cases hc₀

section Example

/-- A version and its reader, in one session. -/
def readBack : List (Entry (Mop Nat Value)) :=
  [⟨0, none⟩, ⟨1, some [.w 1 (.int 5) true]⟩, ⟨2, some [.r 1 (.int 5) false]⟩]

def logOrder : Event → Nat
  | .s i => 2 * i
  | .c i => 2 * i + 1

theorem algo4_accepts_readBack :
    algo4 .stored .exact readBack [readBack.tail] true false = .ok true := by
  obtain ⟨G, hG, hup⟩ :
      ∃ G, AdyaSI.constructGraphFromLog .stored readBack [readBack.tail] true false = .ok G ∧
      ascends logOrder G (pairConstraints G.edgePairs (some G.extKey2writes)) = true :=
      ⟨_, rfl, by decide⟩
  obtain ⟨t, hc, hb⟩ := AdyaSI.checked_of_ok hG
  have hinit : ∀ i, 0 < i → i < G.nNodes → G.Before (.c 0) (.s i) := by
    intro i h0 hi
    exact (hb.before _ _).mpr ⟨⟨0, i, .cb⟩, rfl, .first h0 (hb.nNodes ▸ hi)⟩
  obtain ⟨hlin, ho⟩ :=
    (exists_acyclic_iff hb.inv hinit .stored).mp ⟨_, acyclic_of_ascends logOrder hb.inv hup⟩
  exact algo4_eq_true.mpr ⟨G, hG, (hb.satisfiable_iff hc.tables).mpr ⟨hlin, hb.ordered_iff.mp ho⟩⟩

theorem algo4_accepts_mono_readBack :
    algo4 .stored .exact readBack [readBack.tail] true false = .ok true ∧
    algo4 .stored .exact readBack [readBack.tail] false false = .ok true :=
  ⟨algo4_accepts_readBack, algo4_accepts_mono .stored .stored .exact readBack
    [readBack.tail] true false false nofun
    algo4_accepts_readBack⟩

end Example

namespace AdyaSIChain

omit [ToString κ] in
theorem isInt_of_convertRs2dict {rs : List (Record κ Value)} {d : Dict κ Value}
    (h : convertRs2dict rs = .ok d) :
    ∀ item ∈ rs, item.val.isInt = true := by
  intro item hi
  obtain ⟨d₁, d₂, hstep⟩ := foldlM_each h item hi
  rw [bind_eq_ok] at hstep
  obtain ⟨_, hreq, _⟩ := hstep
  exact require_eq_ok.mp hreq

omit [ToString κ] in
theorem queryPre_eq_ok {k1 k2 : Option κ} {rs dead : List (Record κ Value)}
    (h : queryPre k1 k2 rs dead = .ok ()) :
    assertReturned k1 k2 rs dead = .ok () ∧ ∀ item ∈ rs ++ dead, item.val.isInt = true := by
  simp only [queryPre, bind_eq_ok] at h
  obtain ⟨d₁, h₁, d₂, h₂, hr⟩ := h
  refine ⟨hr, ?_⟩
  intro item hi
  cases List.mem_append.mp hi with
  | inl hi => exact isInt_of_convertRs2dict h₁ item hi
  | inr hi => exact isInt_of_convertRs2dict h₂ item hi

theorem queries_of_ok {known : KnownGraph κ}
    (h : createKnowngraph o H histories strongSession hasFinal = .ok known)
    (ht : t.Of H) {A : Positions κ Value} (hA : allIndex H allWritesFn = .ok A) {q m : Nat}
    {k1 k2 : Option κ}
    {rs dead : List (Record κ Value)}
    (hr : RangeAt H q m k1 k2 rs dead) : queryPre k1 k2 rs dead = .ok () := by
  rw [createKnowngraph_eq o ht hA] at h
  simp only [bind_eq_ok] at h
  obtain ⟨_, _, _, _, _, h₂, _⟩ := h
  exact pre_of_queries ht (fun x (hx : x ∈ queriesScript o H t Prod.fst queryPre) =>
    (play_valid h₂ x (List.mem_append_right _ hx)).imp fun c hc => hc.1) q m k1 k2 rs dead hr

theorem checked_of_ok {known : KnownGraph κ}
    (h : createKnowngraph o H histories strongSession hasFinal = .ok known) :
    ∃ t, Checked o H histories strongSession hasFinal t ∧
      Built o H histories strongSession hasFinal t known := by
  obtain ⟨t, ht, hb⟩ := built_of_ok h
  obtain ⟨_, _, A, hA⟩ := tables_of_ok o h
  refine ⟨t, ⟨⟨ht, hb.unique, ?_, ?_, ?_⟩, ⟨A, hA⟩, ?_⟩, hb⟩
  · intro q m k1 k2 rs dead hr
    exact (queryPre_eq_ok (queries_of_ok h ht hA hr)).1
  · intro c hc
    obtain ⟨c', he, hv⟩ := hb.valid _ hc.ok_limit
    cases he
    exact hv
  · intro e he
    cases he with
    | dirtyRead => exact ⟨_, rfl⟩
    | ownUpsert => exact ⟨_, rfl⟩
    | final hx =>
      obtain ⟨c, hc, _⟩ := hb.valid _ (.final hx)
      cases hc
  · intro q m k1 k2 rs dead hr
    exact (queryPre_eq_ok (queries_of_ok h ht hA hr)).2

end AdyaSIChain

/-- So does algorithm 5. -/
theorem algo5_accepts_mono (o o' : SetOrder) (monosat : GraphSat.Oracle)
    (H : List (Entry (Mop κ Value)))
    (histories : List (List (Entry (Mop κ Value)))) (strongSession strongSession' hasFinal : Bool)
    (hss : strongSession' = true → strongSession = true)
    (h : algo5 o monosat H histories strongSession hasFinal = .ok true) :
    algo5 o' monosat H histories strongSession' hasFinal = .ok true := by
  obtain ⟨g, con, hg, hsat⟩ := algo5_eq_true.mp h
  obtain ⟨t', known', chains, ht', hb', hch, hp, rfl⟩ := AdyaSIChain.encoded_of_ok hg
  rw [AdyaSIChain.constructEncoding, bind_eq_ok] at hg
  obtain ⟨known, hknown, _⟩ := hg
  obtain ⟨t, hc, hb⟩ := AdyaSIChain.checked_of_ok hknown
  obtain rfl := ht'.unique hc.plain.tables
  obtain ⟨hlin, hex⟩ := (hb'.satisfiable_iff ht' hch hp).mp hsat
  have hsub : ∀ x, AdyaSIChain.Known o' H histories strongSession' hasFinal t' x →
      AdyaSIChain.Known o H histories strongSession hasFinal t' x := by
    intro x hx
    exact hx.mono hss fun x hx => (mem_finOf_iff o' o H hasFinal t' x).mp hx
  have hc' : AdyaSIChain.Checked o' H histories strongSession' hasFinal t' :=
    ⟨hc.plain.mono hss, hc.written, hc.values⟩
  obtain ⟨b, hbv, hiff⟩ := hc'.verdict monosat
  rw [hbv, hiff.mpr ⟨?_, hlin, hex.mono hsub⟩]
  intro e he
  obtain ⟨c, hce, _⟩ := hb.valid _ (hsub _ he)
  cases hce

section Example

theorem algo5_accepts_readBack :
    algo5 .stored .exact readBack [readBack.tail] true false = .ok true := by
  obtain ⟨g, con, hg, hup⟩ : ∃ g con,
      AdyaSIChain.constructEncoding .stored readBack [readBack.tail] true false = .ok (g, con) ∧
      ascends logOrder g con = true := ⟨_, _, rfl, by decide⟩
  have he : EncodingOf .stored g con := .chain (.inl ⟨_, rfl, rfl⟩) (by decide) hg
  have hac := acyclic_of_ascends logOrder he.prunable.bounded.inv hup
  rw [algo5_eq_true]
  exact ⟨g, con, hg, he.prunable.satisfiable_iff.mpr
    ((exists_acyclic_iff he.prunable.bounded.inv (fun i h0 hi => he.initial h0 hi) .stored).mp
      ⟨_, hac⟩)⟩

theorem algo5_accepts_mono_readBack :
    algo5 .stored .exact readBack [readBack.tail] true false = .ok true ∧
    algo5 .stored .exact readBack [readBack.tail] false false = .ok true :=
  ⟨algo5_accepts_readBack, algo5_accepts_mono .stored .stored .exact readBack
    [readBack.tail] true false false nofun
    algo5_accepts_readBack⟩

end Example

end Viper
