import Viper.AdyaSIChainSpec

/-!
# The chain encoding agrees with the plain one

The chain encoding is satisfiable exactly when some order of the events explains
the history, and each of its rejections rules such an order out. The plain
encoding decides the same question, so the two algorithms return the same verdict.
-/
namespace Viper

open Py Versions

variable {κ : Type} [LinearOrder κ] [ToString κ]

namespace AdyaSIChain

variable {o : SetOrder} {H : List (Entry (Mop κ Value))}
  {histories : List (List (Entry (Mop κ Value)))} {strongSession hasFinal : Bool} {t : Tables κ}

omit [ToString κ] in
theorem Rmw.readsFrom {k : κ} {i j : Nat} (h : Rmw H k i j) : (workload H).readsFrom k i j := by
  obtain ⟨v, hw, hr, _⟩ := h
  exact ⟨v, hw, hr⟩

omit [ToString κ] in
theorem Rmw.writes {k : κ} {i j : Nat} (h : Rmw H k i j) :
    (workload H).writes k i ∧ (workload H).writes k j := by
  obtain ⟨v, hw, _, hw'⟩ := h
  exact ⟨⟨v, hw⟩, hw'⟩

section Explained

variable [LinearOrder Event] {known : Except Err Cmd → Prop} (h : Explained H known)
include h

omit [ToString κ] in
theorem begins_of_explained (k : κ) (i : Nat) (hw : (workload H).writes k i) :
    Event.s i < Event.c i := by
  obtain ⟨v, hv⟩ := hw
  exact h.begins i hv.lt.2

omit [ToString κ] in
theorem not_diverging_of_explained : ¬ Diverging H := by
  rintro ⟨k, i, j, j', hne, hj, hj'⟩
  have hadj :=
    fun {j} (hj : Rmw H k i j) => h.legal.adjacent (begins_of_explained h) hj.writes.2 hj.readsFrom
  exact hne
    (Versions.Adjacent.successor_unique (begins_of_explained h) hj.writes.1 hj.writes.2 hj'.writes.2
    (hadj hj) (hadj hj'))

omit [ToString κ] in
theorem not_closed_of_explained {k : κ} {C : Chain} (hC : C.txns.IsChain (Rmw H k)) :
    ¬ Rmw H k C.last C.first :=
  not_closed (s := Event.s) (c := Event.c) hC (fun _ b hab => ⟨h.legal.reads hab.readsFrom,
    begins_of_explained h k b hab.writes.2⟩) C.getLast?_txns C.head?_txns

end Explained

section Encoding

variable {known : KnownGraph κ} (hb : Built o H histories strongSession hasFinal t known)
  (ht : t.Of H)
  {chains : ChainTable κ} (hc : Chaining (workload H) (Rmw H) chains.of) {g : ArgumentedPolyGraph κ}
  (hp : Played (inferScript o chains known.readfrom) known.g g)
include hb ht

/-- The final query returned the version of `k` that `i` wrote. -/
def FinalRead (H : List (Entry (Mop κ Value))) (hasFinal : Bool) (k : κ) (i j : Nat) : Prop :=
  hasFinal = true ∧ j = H.length - 1 ∧ ∃ v, FinalValue H k v ∧ Has extWritesFn H i k v

/-- The versions of a history with the readers a builder has recorded. -/
def recorded (H : List (Entry (Mop κ Value))) (readfrom : ReadFrom κ) : Workload κ Nat where
  writes := (workload H).writes
  readsFrom k i j := (workload H).writes k i ∧ j ∈ readfrom.getD (k, i) []

omit hb ht [ToString κ] in
theorem readersOf_recorded (readfrom : ReadFrom κ) : ReadersOf readfrom (recorded H readfrom) :=
  fun _ _ _ hw => (and_iff_right hw).symm

theorem Built.recorded_of_readsFrom {k : κ} {i j : Nat} (h : (workload H).readsFrom k i j) :
    (recorded H known.readfrom).readsFrom k i j := by
  obtain ⟨v, hw, hr⟩ := h
  have hm : j ∈ (readers o t.extWrites t.initial t.extReads).getD (k, i) [] :=
    (mem_readers_iff ht hb.unique k i j).mpr ⟨v, hr, .inl hw⟩
  refine ⟨⟨v, hw⟩, ?_⟩
  rw [hb.readfrom, AdyaSIChain.readersOf]
  split
  · exact mem_finalReaders_of_mem _ _ _ hm
  · exact hm

/-- Recorded readers read in a transaction or in the final query. -/
theorem Built.readsFrom_of_recorded {k : κ} {i j : Nat}
    (h : (recorded H known.readfrom).readsFrom k i j) :
    (workload H).readsFrom k i j ∨ FinalRead H hasFinal k i j := by
  obtain ⟨⟨v', hv'⟩, hj⟩ := h
  have hne : i ≠ 0 := Nat.pos_iff_ne_zero.mp hv'.lt.1
  have hbase : j ∈ (readers o t.extWrites t.initial t.extReads).getD (k, i) [] →
      (workload H).readsFrom k i j := by
    intro hj
    obtain ⟨v, hr, hw | ⟨he, _⟩⟩ := (mem_readers_iff ht hb.unique k i j).mp hj
    · exact ⟨v, hw, hr⟩
    · exact absurd he hne
  rw [hb.readfrom, AdyaSIChain.readersOf] at hj
  split at hj
  · rename_i hf
    rcases mem_finalReaders ht hj with hj | ⟨he, v, hv, hw | ⟨h0, _⟩⟩
    · exact .inl (hbase hj)
    · exact .inr ⟨hf, he, v, hv, hw⟩
    · exact absurd h0 hne
  · exact .inl (hbase hj)

/-- The edges of the final query: it reads a version after all other writers of its key. -/
theorem Built.final_edges {k : κ} {i j : Nat} (h : FinalRead H hasFinal k i j) :
    Known o H histories strongSession hasFinal t (.ok (.edge ⟨i, j, .wr⟩)) ∧
      ∀ x, (workload H).writes k x → x ≠ i → x ≠ j →
        Known o H histories strongSession hasFinal t (.ok (.edge ⟨x, i, .ww⟩)) := by
  obtain ⟨hf, rfl, v, ⟨d₁, d₂, hd, hv⟩, hw⟩ := h
  have hX := extIndex_spec ht.extWrites
  have hscript : ∀ x, x ∈ finalReadScript o t.extWrites (H.length - 1) (k, v) →
      Known o H histories strongSession hasFinal t x := by
    intro x hx
    refine .final ?_
    rw [AdyaSI.finOf, if_pos hf]
    exact (mem_finalScript hd).mpr (.inl ⟨k, v, hv, hx⟩)
  rcases writers_cases hX o k v with ⟨_, hno⟩ | ⟨y, he, hy⟩ | ⟨y, y', l, he, hne, _⟩
  · exact absurd hw (hno i)
  · obtain rfl : i = y := by
      have hm : i ∈ o.iter (getIn t.extWrites k v) :=
        (SetOrder.mem_iter o _ i).mpr ((hX.mem i k v).mpr hw)
      rw [he] at hm
      exact List.mem_singleton.mp hm
    refine ⟨hscript _ (by simp [finalReadScript, he]), fun x hx hxi hxj => hscript _ ?_⟩
    simp only [finalReadScript, he, List.mem_cons, List.mem_map, SetOrder.mem_iter, mem_TkSetFn hX]
    exact .inr ⟨x, ⟨hx, by simp [hxi, hxj]⟩, rfl⟩
  · obtain ⟨c, hc, _⟩ :=
      hb.valid (.error (.assertion "")) (hscript _ (by simp [finalReadScript, he]))
    cases hc

include hc

omit hc in
/-- A final reader of `a` commits after every other writer, so no writer follows `a`. -/
theorem Built.not_after_final [LinearOrder Event]
    (hbegin : ∀ i, i < H.length → Event.s i < Event.c i)
    (hknown : ∀ e, Known o H histories strongSession hasFinal t (.ok (.edge e)) → e.Holds) {k : κ}
    {a b r : Nat}
    (hf : FinalRead H hasFinal k a r) (hw : (workload H).writes k b) (hba : b ≠ a) (hrb : r ≠ b) :
    ¬ Event.c a < Event.s b := by
  intro hab
  have hww : Event.c b < Event.s a := hknown _ ((hb.final_edges ht hf).2 b hw hba (Ne.symm hrb))
  obtain ⟨v, hv⟩ := hw
  obtain ⟨_, _, v', _, hv'⟩ := hf
  exact lt_irrefl _ (((hab.trans (hbegin b hv.lt.2)).trans hww).trans (hbegin a hv'.lt.2))

/-- Two chains that are ordered for all readers are ordered for the recorded ones. -/
theorem Built.before_recorded [LinearOrder Event]
    (hbegin : ∀ i, i < H.length → Event.s i < Event.c i)
    (hknown : ∀ e, Known o H histories strongSession hasFinal t (.ok (.edge e)) → e.Holds) {k : κ}
    {C D : List Nat}
    (hC : C ∈ chains.of k) (hD : D ∈ chains.of k) (hne : C ≠ D)
    (hbef : Before (workload H) Event.s Event.c k C D) :
    Before (recorded H known.readfrom) Event.s Event.c k C D := by
  intro a b ha hb'
  obtain ⟨hab, hr⟩ := hbef a b ha hb'
  refine ⟨hab, fun r hrec => ?_⟩
  rcases hb.readsFrom_of_recorded ht hrec with hw | hf
  · exact hr r hw
  · have hwb := hc.writes_of_mem hD (List.mem_of_head? hb')
    by_cases hrb : r = b
    · obtain ⟨v, hv⟩ := hwb
      rw [hrb]
      exact hbegin b hv.lt.2
    · have hba : b ≠ a := by
        rintro rfl
        exact hne ((hc k).eq_of_mem hC hD (List.mem_of_getLast? ha) (List.mem_of_head? hb'))
      exact absurd hab (hb.not_after_final ht hbegin hknown hf hwb hba hrb)

/-- The final query is recorded as a reader, but puts no condition on chains that
its own edges do not. -/
theorem Built.chainLegal_recorded [LinearOrder Event]
    (hbegin : ∀ i, i < H.length → Event.s i < Event.c i)
    (hknown : ∀ e, Known o H histories strongSession hasFinal t (.ok (.edge e)) → e.Holds) :
    ChainLegal (recorded H known.readfrom) chains.of Event.s Event.c ↔
      ChainLegal (workload H) chains.of Event.s Event.c := by
  have hsub := fun {k i j} => hb.recorded_of_readsFrom ht (k := k) (i := i) (j := j)
  have hbefore := fun {k C D} => hb.before_recorded ht hc hbegin hknown (k := k) (C := C) (D := D)
  constructor
  · intro h
    refine ⟨fun hr => h.reads (hsub hr),
      fun hC he hr hne => h.inner hC he (hsub hr) hne, fun hC hD hne => ?_⟩
    rcases h.outer hC hD hne with hbef | hbef
    · exact .inl (fun a b ha hb => ⟨(hbef a b ha hb).1, fun r hr => (hbef a b ha hb).2 r (hsub hr)⟩)
    · exact .inr (fun a b ha hb => ⟨(hbef a b ha hb).1, fun r hr => (hbef a b ha hb).2 r (hsub hr)⟩)
  · intro h
    refine ⟨fun hrec => ?_, fun {k C l₁ a b l₂ r} hC he hrec hne => ?_, fun hC hD hne => ?_⟩
    · rcases hb.readsFrom_of_recorded ht hrec with hw | hf
      · exact h.reads hw
      · exact hknown _ (hb.final_edges ht hf).1
    · rcases hb.readsFrom_of_recorded ht hrec with hw | hf
      · exact h.inner hC he hw hne
      · have hlink : Rmw H k a b := (hc k).linked.mpr ⟨C, hC, l₁, l₂, he⟩
        have hab := h.reads hlink.readsFrom
        have hba : b ≠ a := by
          rintro rfl
          obtain ⟨v, hv⟩ := hlink.writes.1
          exact lt_asymm hab (hbegin b hv.lt.2)
        exact absurd hab (hb.not_after_final ht hbegin hknown hf hlink.writes.2 hba hne)
    · rcases h.outer hC hD hne with hbef | hbef
      · exact .inl (hbefore hC hD hne hbef)
      · exact .inr (hbefore hD hC (Ne.symm hne) hbef)

include hp

/-- The chain encoding asks for an order that explains the history. -/
theorem Built.ordered_iff [LinearOrder Event] :
    Ordered g.nNodes (g.edgeList o) (coalesceAll o chains known.readfrom) ↔
      Explained H (Known o H histories strongSession hasFinal t) := by
  have hn : g.nNodes = H.length := hp.nNodes.trans hb.nNodes
  have hedges : (∀ e ∈ g.edgeList o, e.Holds) ↔
      (∀ e, Known o H histories strongSession hasFinal t (.ok (.edge e)) → e.Holds) ∧
        ∀ e, .ok (.edge e) ∈ inferScript o chains known.readfrom → e.Holds := by
    rw [holds_edgeList_iff o (hp.inv hb.inv) (P := fun e =>
      Known o H histories strongSession hasFinal t (.ok (.edge e)) ∨
        .ok (.edge e) ∈ inferScript o chains known.readfrom)]
    · simp only [or_imp, forall_and]
    · intro a b
      rw [hp.before, hb.before, ← exists_or]
      exact exists_congr fun e => by tauto
  have hlegal := fun [LinearOrder Event] => chainLegal_iff (o := o)
    (show Chaining (recorded H known.readfrom) (Rmw H) chains.of from hc)
      (readersOf_recorded known.readfrom)
  constructor
  · intro h
    obtain ⟨hk, hi⟩ := hedges.mp h.known
    have hbegin : ∀ i, i < H.length → Event.s i < Event.c i := hn ▸ h.begins
    have hreads : ∀ {k i j}, (recorded H known.readfrom).readsFrom k i j →
        Event.c i < Event.s j := by
      intro k i j hrec
      rcases hb.readsFrom_of_recorded ht hrec with ⟨v, hw, hr⟩ | hf
      · exact hk _ (.read hw hr)
      · exact hk _ (hb.final_edges ht hf).1
    have hchain := (hb.chainLegal_recorded ht hc hbegin hk).mp (hlegal.mp ⟨hreads, hi, h.choice⟩)
    refine ⟨hbegin, hn ▸ h.initial, hk, ?_⟩
    refine legal_of_chainLegal hc (fun k x ⟨v, hv⟩ => hbegin x hv.lt.2)
      (fun k a b hab => hab.readsFrom) hchain ?_
    rintro k i j ⟨v, hw, _⟩
    exact ⟨v, hw⟩
  · intro h
    have hsc := begins_of_explained h
    have hL := chainLegal_of_adjacent hc hsc h.legal
      (fun k a b _ hb hab => h.legal.adjacent hsc hb hab.readsFrom)
    obtain ⟨_, hi, hchoice⟩ := hlegal.mpr ((hb.chainLegal_recorded ht hc h.begins h.known).mpr hL)
    exact ⟨hn ▸ h.begins, hn ▸ h.first, hedges.mpr ⟨h.known, hi⟩, hchoice⟩

theorem Built.satisfiable_iff :
    GraphSat.Satisfiable
      (MonoBCPolyGraphCheckerOptimized.check o g (coalesceAll o chains known.readfrom)) ↔
      ∃ _ : LinearOrder Event, Explained H (Known o H histories strongSession hasFinal t) := by
  rw [MonoBCPolyGraphCheckerOptimized.satisfiable_check_iff]
  · exact exists_congr fun _ => hb.ordered_iff ht hc hp
  · rw [hp.nNodes, hb.nNodes]
    exact List.length_pos_iff.mpr ht.loaded.1
  · intro e he
    exact (hp.inv hb.inv).dst_ne ((g.mem_edgeList o e).mp he).2
  · exact dst_ne_coalesceAll o hc (fun k x ⟨v, hv⟩ => Nat.pos_iff_ne_zero.mp hv.lt.1)
  · exact ne_nil_coalesceAll o chains known.readfrom

end Encoding

/-- Algorithm 5 decides whether some order explains the history, where a reason
to reject it counts as none. -/
theorem Checked.verdict (h : Checked o H histories strongSession hasFinal t)
    (monosat : GraphSat.Oracle) :
    ∃ b, algo5 o monosat H histories strongSession hasFinal = .ok b ∧ (b = true ↔
      (∀ e, ¬ Known o H histories strongSession hasFinal t (.error e)) ∧
        ∃ _ : LinearOrder Event, Explained H (Known o H histories strongSession hasFinal t)) := by
  have hreject :
      ∀ {msg}, constructEncoding o H histories strongSession hasFinal = .error (.reject msg) →
      algo5 o monosat H histories strongSession hasFinal = .ok false := by
    intro msg hmsg
    rw [algo5, mainAlgo35, hmsg]
    rfl
  by_cases hbad : (∃ e, Known o H histories strongSession hasFinal t (.error e)) ∨ Diverging H
  · obtain ⟨msg, hmsg⟩ := h.rejected hbad
    refine ⟨false, hreject (by rw [constructEncoding, hmsg]; rfl), ?_⟩
    simp only [Bool.false_eq_true, false_iff]
    rintro ⟨hno, _, hex⟩
    rcases hbad with ⟨e, he⟩ | hdiv
    · exact hno e he
    · exact not_diverging_of_explained hex hdiv
  · rw [not_or] at hbad
    obtain ⟨known, hknown, hb⟩ := h.built (not_exists.mp hbad.1) hbad.2
    rcases hb.genConstraints_cases h.plain.tables with ⟨chains, hc, g, hg, hp⟩ | ⟨k, C, hC, hl, hg⟩
    · refine ⟨monosat.solve
        (MonoBCPolyGraphCheckerOptimized.check o g (coalesceAll o chains known.readfrom)), ?_, ?_⟩
      · rw [algo5, mainAlgo35, constructEncoding, hknown, ok_bind, hg]
        rfl
      · exact ((monosat.solve_iff _).trans (hb.satisfiable_iff h.plain.tables hc hp)).trans
          (and_iff_right (not_exists.mp hbad.1)).symm
    · refine ⟨false, hreject (by rw [constructEncoding, hknown, ok_bind, hg]), ?_⟩
      simp only [Bool.false_eq_true, false_iff]
      rintro ⟨_, _, hex⟩
      exact not_closed_of_explained hex hC hl

end AdyaSIChain

section Registers

/-- Reads, writes, and deletes that succeed. -/
def Mop.Register {ν : Type} : Mop κ ν → Prop
  | .r _ _ _ => True
  | .w _ _ _ => True
  | .d _ _ _ _ succ => succ = true
  | _ => False

instance {ν : Type} : (mop : Mop κ ν) → Decidable mop.Register
  | .r _ _ _ => .isTrue trivial
  | .w _ _ _ => .isTrue trivial
  | .d _ _ _ _ succ => inferInstanceAs (Decidable (succ = true))
  | .i _ _ _ _ _ => .isFalse id
  | .range _ _ _ _ _ => .isFalse id
  | .append _ _ => .isFalse id

/-- Histories without range queries, with or without an initial transaction. -/
structure RegisterHistory (H : List (Entry (Mop κ Value))) : Prop where
  initial : ∃ st, initialState H = .ok st
  complete : ∀ i, 0 < i → i < H.length → ∃ txn, TxnAt H i txn
  register : ∀ i txn, TxnAt H i txn → ∀ mop ∈ txn, mop.Register
  unique : UniqueWrites H
  apart : ∀ i k v, Has extReadsFn H i k v → ¬ Has extWritesFn H i k v

variable {H : List (Entry (Mop κ Value))}

omit [ToString κ] in
theorem RegisterHistory.wellFormed (h : RegisterHistory H) : WellFormed H where
  initial := h.initial
  complete := h.complete
  admissible i txn ht mop hm := by
    have := h.register i txn ht mop hm
    cases mop with
    | d k v r dead succ => exact this
    | r | w | append => trivial
    | i | range => exact this.elim
  unique := h.unique
  apart := h.apart

omit [ToString κ] in
theorem RegisterHistory.not_range (h : RegisterHistory H) {q m : Nat} {k1 k2 : Option κ}
    {rs dead : List (Record κ Value)} :
    ¬ RangeAt H q m k1 k2 rs dead := by
  rintro ⟨txn, fin, ht, hj⟩
  exact h.register q txn ht _ (List.mem_of_getElem? hj)

/-- Without range queries both builders know the same facts. -/
theorem RegisterHistory.known_limit (h : RegisterHistory H)
    {histories : List (List (Entry (Mop κ Value)))}
    {strongSession : Bool} {initial : Option (Dict κ Value)} {limit limit' : Nat × Nat → Nat}
    {fin : Script}
    {x : Except Err Cmd} (hx : KnownStep H histories strongSession initial limit fin x) :
    KnownStep H histories strongSession initial limit' fin x := by
  cases x with
  | ok c => exact hx.ok_limit
  | error e =>
    cases hx with
    | dirtyRead hr hno hf hn => exact .dirtyRead hr hno hf hn
    | final hm => exact .final hm
    | ownUpsert hom _ _ =>
      obtain ⟨_, _, _, _, hr, _⟩ := hom
      exact absurd hr h.not_range

/-- The chain encoding and the plain one give every such history the same
verdict, a rejection being the verdict `false`. -/
theorem algo5_eq_algo4 (o o' : SetOrder) (monosat : GraphSat.Oracle)
    (H : List (Entry (Mop κ Value)))
    (histories : List (List (Entry (Mop κ Value)))) (strongSession : Bool) (hH : RegisterHistory H)
    (hS : SessionsOf H histories) :
    ∃ b, algo5 o monosat H histories strongSession false = .ok b ∧
      algo4 o' monosat H histories strongSession false = .ok b := by
  obtain ⟨t, hc⟩ := AdyaSI.checked_of_wellFormed strongSession false o' hH.wellFormed hS
    (fun t _ x hx => by cases hx)
  obtain ⟨t', hc'⟩ := AdyaSI.checked_of_wellFormed strongSession false o hH.wellFormed hS
    (fun t _ x hx => by cases hx)
  obtain rfl := hc'.tables.unique hc.tables
  have hchain : AdyaSIChain.Checked o H histories strongSession false t' :=
    ⟨hc', writes_total hH.wellFormed.loaded hH.unique, fun _ _ _ _ _ _ hr => absurd hr hH.not_range⟩
  obtain ⟨b, h₄, hb⟩ := hc.verdict monosat
  obtain ⟨b', h₅, hb'⟩ := hchain.verdict monosat
  have hknown : ∀ x, AdyaSIChain.Known o H histories strongSession false t' x ↔
      KnownStep H histories strongSession t'.initial Prod.snd (AdyaSI.finOf o' H false t') x :=
    fun x => ⟨hH.known_limit, hH.known_limit⟩
  have heq : b' = b := by
    rw [Bool.eq_iff_iff, hb, hb', funext fun x => propext (hknown x)]
  exact ⟨b, heq ▸ h₅, h₄⟩

omit [ToString κ] in
/-- Whether somebody reads its own version can be read off the summaries. -/
theorem apart_of_summaries (h : ∀ p ∈ txns H, ∀ e ∈ (extReadsFn p.1).toOption.elim [] Dict.entries,
    (extWritesFn p.1).toOption.bind (·.get? e.1) ≠ some e.2) (i : Nat) (k : κ) (v : Value)
    (hr : Has extReadsFn H i k v) : ¬ Has extWritesFn H i k v := by
  rintro ⟨txn', w, ht', hw, hk'⟩
  obtain ⟨txn, m, ht, hm, hk⟩ := hr
  obtain rfl := ht.unique ht'
  refine h (txn, i) ((mem_txns H txn i).mpr ht) (k, v) ?_ ?_
  · simpa only [hm, Except.toOption, Option.elim] using (m.mem_entries k v).mpr hk
  · simpa only [hw, Except.toOption, Option.bind_some] using hk'

/-- An initial transaction, a read-modify-write of its version, and a delete. -/
def registerHistory : List (Entry (Mop Nat Value)) :=
  [⟨0, some [.w 1 (.int 7) true]⟩, ⟨1, some [.r 1 (.int 7) false, .w 1 (.int 8) true]⟩,
    ⟨2, some [.d 1 (.int 9) (.int 8) false true]⟩, ⟨3, some [.r 1 (.int 8) false]⟩]

theorem register_registerHistory : RegisterHistory registerHistory where
  initial := ⟨_, rfl⟩
  complete i hi hn := by
    match i, hi, hn with
    | 1, _, _ | 2, _, _ | 3, _, _ => exact ⟨_, by decide, _, rfl, rfl⟩
    | i + 4, _, hn => exact absurd hn (by simp [registerHistory])
  register := forall_txnAt.mpr (by decide)
  unique := uniqueWrites_iff.mpr (by decide)
  apart := apart_of_summaries (by decide)

def registerSessions : List (List (Entry (Mop Nat Value))) := [registerHistory.tail]

theorem sessions_registerSessions : SessionsOf registerHistory registerSessions := by
  unfold SessionsOf
  decide

theorem algo5_eq_algo4_register :
    RegisterHistory registerHistory ∧ SessionsOf registerHistory registerSessions ∧
      ∃ b, algo5 .stored .exact registerHistory registerSessions true false = .ok b ∧
        algo4 .stored .exact registerHistory registerSessions true false = .ok b :=
  ⟨register_registerHistory, sessions_registerSessions,
    algo5_eq_algo4 .stored .stored .exact registerHistory
    registerSessions true register_registerHistory sessions_registerSessions⟩

end Registers

end Viper
