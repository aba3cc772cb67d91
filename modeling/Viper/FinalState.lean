import Viper.FinalHistory
import Viper.InitialReads
import Viper.SnapshotIsolation

/-!
# The final state

The transaction Tf that reads the final state is a reader like any other, and
`process_final_state` puts it behind all of them. On histories of reads and
successful writes the graph is then accepted exactly for snapshot isolation with
Tf last, unless Tf shows a version of an overwritten key that nobody wrote: there
the builder trips over its own assertion.
-/
namespace Viper

open Py

section Definitions

variable {κ : Type} [LinearOrder κ] (H : List (Entry (Mop κ Value)))
  (histories : List (List (Entry (Mop κ Value))))
  (strongSession : Bool) (rs dead : List (Record κ Value))

/-- Snapshot isolation with Tf last, where the initial transaction counts as a
writer: a version nobody else wrote is its version, null if it has none, and no
query omits a key of it. -/
structure FinalIsolated [LinearOrder Event] :
    Prop extends SnapshotIsolated H histories strongSession where
  last : LastBegins H
  initialValues : ∀ st, initialState H = .ok (some st) → ∀ j k v, Has extReadsFn H j k v →
    (∀ i, ¬ Has extWritesFn H i k v) → (st.get? k).getD NULL_VALUE = v
  initialKeys : ∀ st, initialState H = .ok (some st) → ∀ q m k, Omits H q m k → st.get? k = none

/-- The final state shows a version that was overwritten: nobody wrote it, or
another writer has read it or follows its writer in a session. -/
def ShowsOld : Prop :=
  ∃ k v x v', Shows rs dead k v ∧ Has extWritesFn H x k v' ∧ ((∀ i, ¬ Has extWritesFn H i k v) ∨
    ∃ i, Has extWritesFn H i k v ∧ x ≠ i ∧
      (Has extReadsFn H x k v ∨
        (strongSession = true ∧ Relation.TransGen (Consecutive histories) i x)))

def OmitsWritten : Prop := ∃ k, Written H k ∧ ∀ v, ¬ Shows rs dead k v

/-- The checker accepts a graph. -/
def Accepted (o : SetOrder) (G : ArgumentedPolyGraph κ) : Prop :=
  GraphSat.Satisfiable (MonoBCPolyGraphChecker.check G.nNodes (G.edgeList o) (o.iter G.edgePairs)
    (some G.extKey2writes))

/-- The verdict of algorithm 4 on a JSON log with a final state. -/
def finalVerdict [ToString κ] (o : SetOrder) (monosat : GraphSat.Oracle) : Except Err Bool :=
  mainAlgo0124 o (AdyaSI.constructGraphFromJson o H histories strongSession true)
    (fun n edges edgePairs extWrites =>
      .ok (monosat.solve (MonoBCPolyGraphChecker.check n edges edgePairs extWrites)))
    4 false

/-- The final state is checked: the builder rejects the history or its graph is
accepted exactly for snapshot isolation with Tf last, and a wrong final state
gives the verdict `false`. -/
structure FinalChecked [ToString κ] (o : SetOrder) : Prop where
  outcome : Rejects (AdyaSI.constructGraphFromJson o H histories strongSession true) ∨
    ∃ G, AdyaSI.constructGraphFromJson o H histories strongSession true = .ok G ∧
      (Accepted o G ↔ ∃ _ : LinearOrder Event, FinalIsolated H histories strongSession)
  wrong : ShowsOld H histories strongSession rs dead ∨ OmitsWritten H rs dead →
    ∀ monosat, finalVerdict H histories strongSession o monosat = .ok false

/-- A read of a value that is neither written, nor initial, nor null. -/
def Dirty : Prop := ∃ st, initialState H = .ok (some st) ∧ DirtyRead H st

/-- The final state shows a version that nobody wrote of a key that somebody wrote. -/
def Stale : Prop :=
  ∃ k v x v', Shows rs dead k v ∧ (∀ i, ¬ Has extWritesFn H i k v) ∧ Has extWritesFn H x k v'

/-- What the initial transaction wrote is passed over: by a silent null, or by a
query that omits a key of it. -/
def PassedOver : Prop :=
  ∃ st, initialState H = .ok (some st) ∧
    ((∃ j k v, Has extReadsFn H j k v ∧ SilentNull H st k v) ∨
      ∃ q m k v, Omits H q m k ∧ st.get? k = some v)

/-- The constraints of the builder leave an order with Tf last. -/
def Orderable : Prop :=
  ∃ initial, initialState H = .ok initial ∧
    ∃ _ : LinearOrder Event, Constrained H histories strongSession initial ∧ LastBegins H

end Definitions

section Phases

variable {κ : Type} [LinearOrder κ] {H : List (Entry (Mop κ Value))} {k1 k2 : Option κ}
  {rs dead : List (Record κ Value)}

theorem convertRs2dict_total (hv : ∀ item ∈ rs, item.val.isInt = true) :
    ∃ d, convertRs2dict rs = .ok d := by
  have htotal : ∃ d, convertRs2dict rs = .ok d ∧ True := by
    refine foldlM_total (fun _ => True) (fun d item hi _ => ?_) trivial
    exact ⟨d.set item.id item.val, by rw [hv item hi]; rfl, trivial⟩
  obtain ⟨d, hd, _⟩ := htotal
  exact ⟨d, hd⟩

/-- Every record leaves its key in the dictionary. -/
theorem get?_convertRs2dict {d : Dict κ Value} (h : convertRs2dict rs = .ok d)
    {item : Record κ Value} (hi : item ∈ rs) :
    ∃ v, d.get? item.id = some v := by
  have hall :=
    foldlM_prefix (fun done (d : Dict κ Value) => ∀ item ∈ done, ∃ v, d.get? item.id = some v)
    (fun done a rest d d' _ hd hstep item hi => by
      rw [bind_eq_ok] at hstep
      obtain ⟨_, _, he⟩ := hstep
      cases he
      rw [Dict.get?_set]
      by_cases hk : item.id = a.id
      · exact ⟨a.val, if_pos hk⟩
      · rw [if_neg hk]
        refine hd item ((List.mem_append.mp hi).resolve_right fun ha => hk ?_)
        rw [List.mem_singleton.mp ha]) (by simp) h
  exact hall item hi

section Final

variable (h : FinalHistory H k1 k2 rs dead)
include h

theorem FinalHistory.dicts :
    ∃ d₁ d₂, finalDicts H = .ok (d₁, d₂) ∧ convertRs2dict rs = .ok d₁ ∧
      convertRs2dict dead = .ok d₂ := by
  obtain ⟨fin, ht⟩ := h.final
  obtain ⟨d₁, h₁⟩ :=
    convertRs2dict_total (fun item hi => h.values item (List.mem_append_left dead hi))
  obtain ⟨d₂, h₂⟩ :=
    convertRs2dict_total (fun item hi => h.values item (List.mem_append_right rs hi))
  have hq : finalQuery H = .ok (rs, dead) := by
    rw [finalQuery, mopAt_eq_ok ht rfl]
    rfl
  exact ⟨d₁, d₂, by simp [finalDicts, hq, h₁, h₂], h₁, h₂⟩

/-- What `process_final_state` goes through is what the final state shows. -/
theorem FinalHistory.finalValue_iff (hB : TwoSided k1 k2 rs dead) (hR : ¬ Refused H) {k : κ}
    {v : Value} :
    AdyaSIChain.FinalValue H k v ↔ Shows rs dead k v := by
  have hshown : ∀ {k v}, AdyaSIChain.FinalValue H k v → Shows rs dead k v := by
    intro k v hv
    obtain ⟨a, b, live, gone, fin, rest, ht, item, hi, he⟩ := hv.exists_record h.pos
    obtain ⟨fin', hl⟩ := h.last_txn ht
    cases hl
    exact ⟨item, hi, he⟩
  refine ⟨hshown, fun hs => ?_⟩
  obtain ⟨d₁, d₂, hd, h₁, h₂⟩ := h.dicts
  have hread := h.reads hB hR hs
  obtain ⟨item, hi, rfl, rfl⟩ := hs
  -- a key that is shown twice is shown with one value
  have hval : ∀ v, AdyaSIChain.FinalValue H item.id v → v = item.val :=
    fun v hv => (h.reads hB hR (hshown hv)).unique hread
  rcases List.mem_append.mp hi with hi | hi
  · obtain ⟨v, hv⟩ := get?_convertRs2dict h₁ hi
    have hfinal : AdyaSIChain.FinalValue H item.id v := ⟨d₁, d₂, hd, .inl hv⟩
    exact hval v hfinal ▸ hfinal
  · obtain ⟨v, hv⟩ := get?_convertRs2dict h₂ hi
    have hfinal : AdyaSIChain.FinalValue H item.id v := ⟨d₁, d₂, hd, .inr hv⟩
    exact hval v hfinal ▸ hfinal

end Final

variable [ToString κ] {histories : List (List (Entry (Mop κ Value)))} {strongSession : Bool}
  {o : SetOrder} {t : Tables κ}

/-- A dirty read is found before the final state is looked at. -/
theorem AdyaSI.Checked.rejected_dirty (hc : AdyaSI.Checked o H histories strongSession false t)
    {j : Nat} {k : κ} {v : Value}
    (hr : Has extReadsFn H j k v) (hno : ∀ i, ¬ Has extWritesFn H i k v)
    (hf : fromInitial t.initial k v = false)
    (hn : isNull v = false) (hasFinal : Bool) :
    Rejects (constructGraphFromLog o H histories strongSession hasFinal) := by
  have hmem : .error (.reject s!"dirty read {k}: {v}") ∈
      readsScript o t.extWrites t.initial t.extReads := by
    refine knownReads_subset_reads (mem_knownReadsScript_of hc.tables hr fun l _ => ?_)
    simp [knownReadScript, writers_eq_nil (extIndex_spec hc.tables.extWrites) o hno, hf, hn]
  have hsub :
      ∀ x ∈ (if strongSession then sessionScript histories else []) ++ initialScript H.length ++
      readsScript o t.extWrites t.initial t.extReads,
      x ∈ script o H histories strongSession false t := by
    intro x hx
    exact List.mem_append_left _ (List.mem_append_left _ (List.mem_append_left _ hx))
  obtain ⟨e, hplay, he⟩ :=
    play_raises (G := (ArgumentedPolyGraph.init H.length).setSessionOrder histories)
    (fun c hm => hc.valid_script c (hsub _ hm)) (List.mem_append_right _ hmem)
  obtain ⟨msg, rfl⟩ := hc.rejects e ((hc.error_script e).mp (hsub _ he))
  refine ⟨msg, ?_⟩
  rw [construct_eq o hc.tables, script, play_append, play_append, play_append, hplay]
  rfl

omit [ToString κ] in
theorem dirty_iff (ht : t.Of H) :
    Dirty H ↔ ∃ j k v, Has extReadsFn H j k v ∧ (∀ i, ¬ Has extWritesFn H i k v) ∧
    fromInitial t.initial k v = false ∧ isNull v = false := by
  constructor
  · rintro ⟨st, hst, j, k, v, hr, hno, hne, hn⟩
    have hi : t.initial = some st := Except.ok.inj (ht.initial.symm.trans hst)
    exact ⟨j, k, v, hr, hno, fromInitial_eq_false.mpr ⟨st, hi, hne⟩, by simpa [isNull] using hn⟩
  · rintro ⟨j, k, v, hr, hno, hf, hn⟩
    obtain ⟨st, hi, hne⟩ := fromInitial_eq_false.mp hf
    exact ⟨st, hi ▸ ht.initial, j, k, v, hr, hno, hne, by simpa [isNull] using hn⟩

/-- Only dirty reads are rejected: Tf upserts nothing, and the final state gives no verdict. -/
theorem FinalHistory.dirty_of_reject (h : FinalHistory H k1 k2 rs dead) (ht : t.Of H) {msg : String}
    (hk : KnownStep H histories strongSession t.initial Prod.snd (AdyaSI.finOf o H true t)
      (.error (.reject msg))) :
    Dirty H := by
  cases hk with
  | dirtyRead hr hno hf hn => exact (dirty_iff ht).mpr ⟨_, _, _, hr, hno, hf, hn⟩
  | final hx =>
    obtain ⟨d₁, d₂, hd, _⟩ := h.dicts
    rcases kind_of_final hx with ⟨_, he⟩ | ⟨_, he⟩ | ⟨_, he, _⟩
    · cases he
    · cases he
    · cases hd.symm.trans he
  | ownUpsert hom hu _ =>
    obtain ⟨rfl, _⟩ := h.omits hom
    exact absurd rfl (h.upsert_ne hu)

section Stale

variable (h : FinalHistory H k1 k2 rs dead) (hB : TwoSided k1 k2 rs dead) (hR : ¬ Refused H)
include h hB hR

theorem FinalHistory.checkedPlain (hS : SessionsOf H histories) (strongSession : Bool)
    (o : SetOrder) :
    ∃ t, AdyaSI.Checked o H histories strongSession false t :=
  AdyaSI.checked_of_wellFormed strongSession false o (h.wellFormed hB hR) hS
    (fun t _ x hx => by cases hx)

/-- A stale final state trips the assertion of `process_final_state`. -/
theorem FinalHistory.crashes_of_stale (hS : SessionsOf H histories) (hD : ¬ Dirty H)
    (hs : Stale H rs dead) :
    Crashes (AdyaSI.constructGraphFromLog o H histories strongSession true) := by
  obtain ⟨t, hc⟩ := h.checkedPlain hB hR hS strongSession o
  have ht := hc.tables
  have hmem : .error (.assertion "No txn can happen after Tf") ∈ AdyaSI.finOf o H true t := by
    obtain ⟨k, v, x, v', hshow, hno, hw⟩ := hs
    obtain ⟨d₁, d₂, hd, hv⟩ := (h.finalValue_iff hB hR).mpr hshow
    have hother : ∃ y u, Has extWritesFn H y k u ∧ y ≠ 0 ∧ y ≠ H.length - 1 :=
      ⟨x, v', hw, Nat.pos_iff_ne_zero.mp hw.lt.1, h.not_last hw⟩
    have hread :=
      (mem_finalReadScript_of_unwritten (extIndex_spec ht.extWrites) o hno).mpr (.inr ⟨hother, rfl⟩)
    exact (mem_finalScript hd).mpr (.inl ⟨k, v, hv, hread⟩)
  constructor
  · cases hG : AdyaSI.constructGraphFromLog o H histories strongSession true with
    | error e => exact ⟨e, rfl⟩
    | ok G =>
      obtain ⟨t', ht', hb⟩ := AdyaSI.built_of_ok hG
      obtain rfl := ht'.unique ht
      obtain ⟨c, he, _⟩ := hb.known _ (.final hmem)
      cases he
  · rintro ⟨msg, hrej⟩
    rw [AdyaSI.construct_eq o ht] at hrej
    cases hplay : play ((ArgumentedPolyGraph.init H.length).setSessionOrder histories)
        (AdyaSI.script o H histories strongSession true t) with
    | ok G =>
      rw [hplay] at hrej
      cases hrej
    | error e =>
      rw [hplay] at hrej
      obtain rfl : e = .reject msg := Except.error.inj hrej
      rcases (AdyaSI.mem_script ht hc.unique hc.returned _).mp (play_reject hplay)
        with hk | ⟨_, _, _, he⟩ | ⟨_, _, he⟩
      · exact hD (h.dirty_of_reject ht hk)
      · cases he
      · cases he

end Stale

end Phases

section Orders

variable {κ : Type} [LinearOrder κ] [ToString κ] {H : List (Entry (Mop κ Value))} {k1 k2 : Option κ}
  {rs dead : List (Record κ Value)} {histories : List (List (Entry (Mop κ Value)))}
  {strongSession : Bool} {o : SetOrder} {t : Tables κ}

section Last

variable (h : FinalHistory H k1 k2 rs dead) (hB : TwoSided k1 k2 rs dead) (hR : ¬ Refused H)
include h hB hR

omit [ToString κ] in
/-- A final state that is not stale passes the assertions of `process_final_state`. -/
theorem FinalHistory.passes (hs : ¬ Stale H rs dead) : Passes H true := by
  refine (h.wellFormed hB hR).passes ?_ (fun _ => ?_)
  · intro q m a b live gone hr
    obtain ⟨_, _, _, rfl, rfl⟩ := h.range hr
    exact h.values
  · obtain ⟨d₁, d₂, hd, _⟩ := h.dicts
    refine ⟨h.pos, ⟨_, hd⟩, fun k v hv => ?_⟩
    by_cases hw : ∃ i, Has extWritesFn H i k v
    · obtain ⟨i, hi⟩ := hw
      exact .inl ⟨i, h.not_last hi, hi, fun i' hi' => h.unique.ext hi' hi⟩
    · have hno := not_exists.mp hw
      exact .inr
        ⟨hno, fun x v' hx => absurd ⟨k, v, x, v', (h.finalValue_iff hB hR).mp hv, hno, hx⟩ hs⟩

omit [ToString κ] in
/-- Among the constrained orders, the final state picks those with Tf last. -/
theorem FinalHistory.finalAllows_iff [LinearOrder Event] {initial : Option (Dict κ Value)}
    (hc : Constrained H histories strongSession initial) : FinalAllows H ↔ LastBegins H := by
  constructor
  · exact fun hallow => hallow.last
  · intro hlast
    refine ⟨hlast, fun k v i hv hi x v' hx hxi _ => ?_⟩
    -- the writer that Tf reads from is the last one, so all others commit before it begins
    have hr := h.reads hB hR ((h.finalValue_iff hB hR).mp hv)
    have hle := (hc.reads i (H.length - 1) k v hr hi).2 x v' hx (hlast x (h.write_lt hx))
    cases hc.apart x i k v' v hx hi hxi with
    | inl hlt => exact hlt
    | inr hlt => exact absurd (hlt.trans (hc.begins x hx.lt.2)) (not_lt.mpr hle)

/-- Without a dirty read and with a fresh final state, the graph is accepted
exactly when its constraints leave an order with Tf last. -/
theorem FinalHistory.built (hS : SessionsOf H histories) (hD : ¬ Dirty H) (hs : ¬ Stale H rs dead) :
    ∃ G, AdyaSI.constructGraphFromLog o H histories strongSession true = .ok G ∧
      (Accepted o G ↔ Orderable H histories strongSession) := by
  obtain ⟨_, hinit⟩ := (h.wellFormed hB hR).initial
  obtain ⟨t, hc⟩ := (h.passes hB hR hs).checked hinit hS o strongSession
  have ht := hc.plain.tables
  obtain ⟨G, hG, hb⟩ := hc.plain.built (fun e he => by
    obtain ⟨msg, rfl⟩ := hc.plain.rejects e he
    exact hD (h.dirty_of_reject ht he))
  refine ⟨G, hG, (hb.satisfiable_iff ht).trans ?_⟩
  have horder : ∀ _ : LinearOrder Event,
      Explained H
        (KnownStep H histories strongSession t.initial Prod.snd (AdyaSI.finOf o H true t)) ↔
        Constrained H histories strongSession t.initial ∧ LastBegins H := by
    intro _
    rw [explained_final_iff, ← AdyaSI.constrained_iff]
    refine and_congr_right fun hcon => ?_
    exact (final_holds_iff ht ((h.passes hB hR hs).final rfl)).trans (h.finalAllows_iff hB hR hcon)
  constructor
  · rintro ⟨order, hex⟩
    exact ⟨t.initial, ht.initial, order, (horder order).mp hex⟩
  · rintro ⟨initial, hi, order, hex⟩
    obtain rfl : t.initial = initial := Except.ok.inj (ht.initial.symm.trans hi)
    exact ⟨order, (horder order).mpr hex⟩

end Last

omit [ToString κ] in
/-- Snapshot isolation asks for all that the builder asks for. -/
theorem FinalIsolated.constrained [LinearOrder Event] (h : FinalIsolated H histories strongSession)
    (initial : Option (Dict κ Value)) : Constrained H histories strongSession initial where
  begins := h.begins
  first := h.first
  reads := h.reads
  initialReads j k v hr hno _ := h.initialReads j k v hr hno
  ranges q m k hom := (h.ranges q m k hom).2
  apart := h.apart
  sessions := h.sessions

omit [ToString κ] in
/-- A version that nobody wrote is the initial one, unless it is dirty or passed over. -/
theorem fromInitial_of_read (ht : t.Of H) (hD : ¬ Dirty H) (hP : ¬ PassedOver H) {j : Nat}
    {k : κ} {v : Value}
    (hr : Has extReadsFn H j k v) (hno : ∀ i, ¬ Has extWritesFn H i k v) :
    fromInitial t.initial k v = true := by
  by_contra hf
  obtain ⟨st, hi, hne⟩ := fromInitial_eq_false.mp (Bool.eq_false_iff.mpr hf)
  have hst : initialState H = .ok (some st) := hi ▸ ht.initial
  by_cases hn : v = NULL_VALUE
  · exact hP ⟨st, hst, .inl ⟨j, k, v, hr, hno, hn, hne⟩⟩
  · exact hD ⟨st, hst, j, k, v, hr, hno, hne, hn⟩

omit [ToString κ] in
/-- What the builder asks for is snapshot isolation, if nothing is passed over. -/
theorem FinalHistory.isolated [LinearOrder Event] (h : FinalHistory H k1 k2 rs dead) (ht : t.Of H)
    (hD : ¬ Dirty H)
    (hP : ¬ PassedOver H) (hc : Constrained H histories strongSession t.initial)
    (hl : LastBegins H) :
    FinalIsolated H histories strongSession where
  begins := hc.begins
  first := hc.first
  reads := hc.reads
  initialReads j k v hr hno := hc.initialReads j k v hr hno (fromInitial_of_read ht hD hP hr hno)
  ranges q m k hom := by
    refine ⟨fun p _ hu => ?_, hc.ranges q m k hom⟩
    obtain ⟨rfl, _⟩ := h.omits hom
    exact h.upsert_ne hu rfl
  apart := hc.apart
  sessions := hc.sessions
  last := hl
  initialValues st hst j k v hr hno := by
    have hi : t.initial = some st := Except.ok.inj (ht.initial.symm.trans hst)
    have hv : st.get? k = some v := fromInitial_some.mp (hi ▸ fromInitial_of_read ht hD hP hr hno)
    rw [hv]
    rfl
  initialKeys st hst q m k hom := by
    cases hk : st.get? k with
    | none => rfl
    | some v => exact absurd ⟨st, hst, .inr ⟨q, m, k, v, hom, hk⟩⟩ hP

omit [ToString κ] in
/-- In a session, later transactions begin after earlier ones have committed. -/
theorem FinalIsolated.session_lt [LinearOrder Event] (h : FinalIsolated H histories strongSession)
    (hS : SessionsOf H histories) (hs : strongSession = true) {i j : Nat}
    (hij : Relation.TransGen (Consecutive histories) i j) :
    Event.c i < Event.s j := by
  induction hij with
  | single hc => exact h.sessions hs _ _ hc
  | tail _ hc ih =>
    have hlt := (hS.consecutive hc).2.2.1
    exact ih.trans ((h.begins _ hlt).trans (h.sessions hs _ _ hc))

omit [ToString κ] in
/-- With Tf last, the final state is the last version of every key. -/
theorem FinalHistory.not_wrong [LinearOrder Event] (h : FinalHistory H k1 k2 rs dead)
    (hB : TwoSided k1 k2 rs dead)
    (hR : ¬ Refused H) (hS : SessionsOf H histories)
    (hiso : FinalIsolated H histories strongSession) :
    ¬ (ShowsOld H histories strongSession rs dead ∨ OmitsWritten H rs dead) := by
  rintro (⟨k, v, x, v', hshow, hx, hold⟩ | ⟨k, hw, hno⟩)
  · have hr := h.reads hB hR hshow
    have hlast : Event.c x < Event.s (H.length - 1) := hiso.last x (h.write_lt hx)
    rcases hold with hno | ⟨i, hi, hne, hover⟩
    · exact hiso.initialReads _ k v hr hno x v' hx hlast
    · have hle := (hiso.reads i _ k v hr hi).2 x v' hx hlast
      have hlt : Event.c i < Event.s x := by
        rcases hover with hrx | ⟨hs, hsession⟩
        · exact (hiso.reads i x k v hrx hi).1
        · exact hiso.session_lt hS hs hsession
      exact absurd (hlt.trans (hiso.begins x hx.lt.2)) (not_lt.mpr hle)
  · have hom := h.omits_of_written hw hno
    rcases hw with ⟨x, v, hx⟩ | ⟨st, v, hst, hv⟩
    · obtain ⟨txn, m, htx, hm, hk⟩ := hx
      obtain ⟨mop, hmop, hwritten, _⟩ := extWritesFn_succeeds hm hk
      have hx : Has extWritesFn H x k v := ⟨txn, m, htx, hm, hk⟩
      have hplain := h.plain x txn htx (h.not_last hx) mop hmop
      obtain ⟨j, hj⟩ := List.mem_iff_getElem?.mp hmop
      have hu : UpsertAt H x j k := by
        cases mop with
        | w k' v' succ =>
          cases hwritten
          exact ⟨txn, v, succ, htx, hj⟩
        | r | range => cases hwritten
        | i | d | append => exact hplain.elim
      exact (hiso.ranges _ _ k hom).2 x j hu (h.not_last hx) (hiso.last x (h.write_lt hx))
    · have hnone := hiso.initialKeys st hst _ _ k hom
      rw [hv] at hnone
      cases hnone

end Orders

section Main

variable {κ : Type} [LinearOrder κ] [ToString κ] {H : List (Entry (Mop κ Value))} {k1 k2 : Option κ}
  {rs dead : List (Record κ Value)} {histories : List (List (Entry (Mop κ Value)))}
  {strongSession : Bool} {o : SetOrder}

theorem finalVerdict_of_rejects
    (h : Rejects (AdyaSI.constructGraphFromJson o H histories strongSession true))
    (monosat : GraphSat.Oracle) : finalVerdict H histories strongSession o monosat = .ok false := by
  obtain ⟨msg, h⟩ := h
  rw [finalVerdict, mainAlgo0124, h]
  rfl

theorem finalVerdict_of_refuted {G : ArgumentedPolyGraph κ}
    (hG : AdyaSI.constructGraphFromJson o H histories strongSession true = .ok G)
    (hno : ¬ Accepted o G)
    (monosat : GraphSat.Oracle) : finalVerdict H histories strongSession o monosat = .ok false := by
  have hsolve :
      monosat.solve (MonoBCPolyGraphChecker.check G.nNodes (G.edgeList o) (o.iter G.edgePairs)
      (some G.extKey2writes)) = false := by
    rw [Bool.eq_false_iff]
    exact fun hs => hno ((monosat.solve_iff _).mp hs)
  rw [finalVerdict, mainAlgo0124, hG, ok_bind, ArgumentedPolyGraph.get4tuples]
  simp [hsolve, catchReject]

/-- A rejection settles everything. -/
theorem finalChecked_of_rejects
    (h : Rejects (AdyaSI.constructGraphFromJson o H histories strongSession true)) :
    FinalChecked H histories strongSession rs dead o :=
  ⟨.inl h, fun _ => finalVerdict_of_rejects h⟩

theorem not_finalChecked_of_crashes
    (h : Crashes (AdyaSI.constructGraphFromJson o H histories strongSession true)) :
    ¬ FinalChecked H histories strongSession rs dead o := by
  intro hc
  obtain ⟨⟨e, he⟩, hno⟩ := h
  rcases hc.outcome with hr | ⟨G, hG, _⟩
  · exact hno hr
  · rw [he] at hG
    cases hG

/-- Where the builder returns a graph, `FinalChecked` says that the graph is accepted
exactly when some order isolates the history with its final state. -/
theorem finalChecked_iff_of_ok {G : ArgumentedPolyGraph κ}
    (hG : AdyaSI.constructGraphFromJson o H histories strongSession true = .ok G)
    (hwrong : ∀ _ : LinearOrder Event, FinalIsolated H histories strongSession →
      ¬ (ShowsOld H histories strongSession rs dead ∨ OmitsWritten H rs dead)) :
    FinalChecked H histories strongSession rs dead o ↔
      (Accepted o G ↔ ∃ _ : LinearOrder Event, FinalIsolated H histories strongSession) := by
  constructor
  · intro h
    rcases h.outcome with ⟨msg, hrej⟩ | ⟨G', hG', hiff⟩
    · rw [hG] at hrej
      cases hrej
    · rw [hG] at hG'
      cases hG'
      exact hiff
  · intro hiff
    refine ⟨.inr ⟨G, hG, hiff⟩, fun hw => finalVerdict_of_refuted hG (fun ha => ?_)⟩
    obtain ⟨order, hiso⟩ := hiff.mp ha
    exact hwrong order hiso hw

omit [ToString κ] in
/-- The constraints ask for snapshot isolation, if nothing is passed over or it
makes no difference. -/
theorem FinalHistory.orderable_iff (h : FinalHistory H k1 k2 rs dead) (hD : ¬ Dirty H)
    {t : Tables κ} (ht : t.Of H) :
    (Orderable H histories strongSession ↔
      ∃ _ : LinearOrder Event, FinalIsolated H histories strongSession) ↔
      (PassedOver H → Orderable H histories strongSession →
        ∃ _ : LinearOrder Event, FinalIsolated H histories strongSession) := by
  have hiso : (∃ _ : LinearOrder Event, FinalIsolated H histories strongSession) →
    Orderable H histories strongSession :=
    fun ⟨order, hiso⟩ => ⟨t.initial, ht.initial, order, hiso.constrained _, hiso.last⟩
  constructor
  · exact fun hiff _ => hiff.mp
  · refine fun hcond => ⟨fun hord => ?_, hiso⟩
    by_cases hP : PassedOver H
    · exact hcond hP hord
    · obtain ⟨initial, hi, order, hcon, hl⟩ := hord
      obtain rfl : t.initial = initial := Except.ok.inj (ht.initial.symm.trans hi)
      exact ⟨order, h.isolated ht hD hP hcon hl⟩

/-- On a history of reads and successful writes whose last transaction queries all
keys, the final state is checked exactly when `check_INT` refuses a transaction,
or the bounds of the query can be compared and there is a dirty read, or the final
state shows no unwritten version of a written key, and where the initial
transaction is passed over, the constraints ask for no less than snapshot isolation. -/
theorem finalChecked_iff (o : SetOrder) (H : List (Entry (Mop κ Value)))
    (histories : List (List (Entry (Mop κ Value))))
    (strongSession : Bool) (k1 k2 : Option κ) (rs dead : List (Record κ Value))
    (hH : FinalHistory H k1 k2 rs dead)
    (hS : SessionsOf H histories) : FinalChecked H histories strongSession rs dead o ↔
      Refused H ∨ (TwoSided k1 k2 rs dead ∧ (Dirty H ∨ (¬ Stale H rs dead ∧
        (PassedOver H → Orderable H histories strongSession →
          ∃ _ : LinearOrder Event, FinalIsolated H histories strongSession)))) := by
  by_cases hR : Refused H
  · exact iff_of_true (finalChecked_of_rejects (hH.json_rejects hR true)) (.inl hR)
  rw [or_iff_right hR]
  by_cases hB : TwoSided k1 k2 rs dead
  · rw [and_iff_right hB]
    have hjson : AdyaSI.constructGraphFromJson o H histories strongSession true =
        AdyaSI.constructGraphFromLog o H histories strongSession true := hH.json_eq hB hR true
    obtain ⟨t, hc⟩ := hH.checkedPlain hB hR hS strongSession o
    by_cases hD : Dirty H
    · refine iff_of_true (finalChecked_of_rejects ?_) (.inl hD)
      obtain ⟨j, k, v, hr, hno, hf, hn⟩ := (dirty_iff hc.tables).mp hD
      rw [hjson]
      exact hc.rejected_dirty hr hno hf hn true
    rw [or_iff_right hD]
    by_cases hs : Stale H rs dead
    · refine iff_of_false (not_finalChecked_of_crashes ?_) (fun hcond => hcond.1 hs)
      rw [hjson]
      exact hH.crashes_of_stale hB hR hS hD hs
    rw [and_iff_right hs, ← hH.orderable_iff hD hc.tables]
    obtain ⟨G, hG, hacc⟩ := hH.built hB hR hS hD hs
    rw [finalChecked_iff_of_ok (hjson.trans hG) (fun _ hiso => hH.not_wrong hB hR hS hiso), hacc]
  · exact iff_of_false (not_finalChecked_of_crashes (hH.json_crashes hB hR))
      (fun hcond => hB hcond.1)

section Example

/-- The initial transaction writes 7, transaction 1 overwrites it, and the final
state still shows 7. -/
def staleFinal : List (Entry (Mop Nat Value)) :=
  [⟨0, some [.w 1 (.int 7) true]⟩, ⟨1, some [.w 1 (.int 5) true]⟩,
    ⟨2, some [.range (some 0) (some 9) [⟨1, .int 7⟩] [] (some true)]⟩]

theorem final_staleFinal : FinalHistory staleFinal (some 0) (some 9) [⟨1, .int 7⟩] [] where
  initial := by
    refine ⟨_, rfl, ?_⟩
    intro ops hops mop hm
    cases hops
    exact ⟨1, .int 7, List.mem_singleton.mp hm⟩
  complete i hi hn := by
    match i, hi, hn with
    | 1, _, _ | 2, _, _ => exact ⟨_, by decide, _, rfl, rfl⟩
    | i + 3, _, hn => exact absurd hn (by simp [staleFinal])
  plain i txn ht hne := by
    have hall := forall_txnAt (H := staleFinal) (P := fun i txn => i ≠ 2 → ∀ mop ∈ txn, mop.Plain)
    exact hall.mpr (by decide) i txn ht hne
  final := ⟨some true, by decide, _, rfl, rfl⟩
  covers k hk := by
    obtain rfl : k = 1 := by
      rcases hk with ⟨item, hi, rfl⟩ | ⟨i, v, txn, m, ht, hm, hv⟩ | ⟨st, v, hst, hv⟩
      · rw [List.mem_singleton.mp hi]
      · have hall := forall_txnAt (H := staleFinal)
          (P := fun _ txn => ∀ e ∈ (extWritesFn txn).toOption.elim [] Dict.entries, e.1 = 1)
        have hkeys := hall.mpr (by decide) i txn ht
        rw [hm] at hkeys
        exact hkeys (k, v) ((m.mem_entries k v).mpr hv)
      · obtain rfl : Dict.empty.set 1 (.int 7) = st := Option.some.inj (Except.ok.inj hst)
        rw [Dict.get?_set] at hv
        split at hv
        · assumption
        · simp at hv
    rfl
  values := by decide
  unique := uniqueWrites_iff.mpr (by decide)

def staleSessions : List (List (Entry (Mop Nat Value))) := [staleFinal.tail]

theorem sessions_staleFinal : SessionsOf staleFinal staleSessions := by
  unfold SessionsOf
  decide

theorem finalChecked_iff_stale : FinalHistory staleFinal (some 0) (some 9) [⟨1, .int 7⟩] [] ∧
    SessionsOf staleFinal staleSessions ∧
    (FinalChecked staleFinal staleSessions false [⟨1, .int 7⟩] [] .stored ↔
      Refused staleFinal ∨
      (TwoSided (some 0) (some 9) [(⟨1, .int 7⟩ : Record Nat Value)] [] ∧ (Dirty staleFinal ∨
        (¬ Stale staleFinal [⟨1, .int 7⟩] [] ∧
          (PassedOver staleFinal → Orderable staleFinal staleSessions false →
          ∃ _ : LinearOrder Event, FinalIsolated staleFinal staleSessions false))))) :=
  ⟨final_staleFinal, sessions_staleFinal,
    finalChecked_iff .stored staleFinal staleSessions false (some 0) (some 9)
    [⟨1, .int 7⟩] [] final_staleFinal sessions_staleFinal⟩

/-- The stale final state is an assertion error instead of a verdict. -/
theorem staleFinal_crashes : FinalHistory staleFinal (some 0) (some 9) [⟨1, .int 7⟩] [] ∧
    ShowsOld staleFinal staleSessions false [⟨1, .int 7⟩] [] ∧
    AdyaSI.constructGraphFromJson .stored staleFinal staleSessions false true =
      .error (.assertion "No txn can happen after Tf") ∧
    ¬ FinalChecked staleFinal staleSessions false [⟨1, .int 7⟩] [] .stored := by
  have hrun : AdyaSI.constructGraphFromJson .stored staleFinal staleSessions false true =
      .error (.assertion "No txn can happen after Tf") := rfl
  refine ⟨final_staleFinal, ?_, hrun,
    not_finalChecked_of_crashes ⟨⟨_, hrun⟩, by simp [hrun, Rejects]⟩⟩
  refine ⟨1, .int 7, 1, .int 5, ⟨_, List.mem_cons_self, rfl, rfl⟩,
    ⟨_, _, ⟨by decide, _, rfl, rfl⟩, rfl, rfl⟩, .inl ?_⟩
  rintro i ⟨txn, m, ht, hm, hv⟩
  have hall := forall_txnAt (H := staleFinal)
    (P := fun _ txn => ∀ e ∈ (extWritesFn txn).toOption.elim [] Dict.entries, e.2 ≠ .int 7)
  have hvalues := hall.mpr (by decide) i txn ht
  rw [hm] at hvalues
  exact hvalues (1, .int 7) ((m.mem_entries _ _).mpr hv) rfl

end Example

end Main

end Viper
