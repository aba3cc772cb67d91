import Viper.SerializationGraph

/-!
# Anomalies that are always refused

What a transaction saw and what it missed can be read off a history without
knowing the order of the versions. Whatever the input is, the algorithms accept no
history in which two writers of a key missed each other, or in which sights and
misses form a cycle without two misses in a row.
-/
namespace Viper

open Py Precedence Dependencies

section Sights

variable {κ : Type} [LinearOrder κ] (H : List (Entry (Mop κ Value)))
  (histories : List (List (Entry (Mop κ Value)))) (strongSession : Bool)

/-- Transaction `j` has seen `i`, along reads of versions and along sessions if
their order counts. -/
def Saw : Nat → Nat → Prop :=
  Relation.TransGen fun i j =>
    (∃ k, (workload H).readsFrom k i j) ∨
      (strongSession = true ∧ Consecutive histories i j ∧ j < H.length)

/-- Transaction `j` has missed a write of `x`. -/
inductive MissedWrite (j x : Nat) : Prop
  /-- it read the initial version of a key that `x` writes -/
  | initial {k v v' st} : x ≠ j → initialState H = .ok st → fromInitial st k v = true →
      Has extReadsFn H j k v →
    (∀ i, ¬ Has extWritesFn H i k v) → Has extWritesFn H x k v' → MissedWrite j x
  /-- it read a version that `x` overwrites, having seen it -/
  | overwritten {k i} : x ≠ j → x ≠ i → (workload H).readsFrom k i j → (workload H).writes k x →
    Saw H histories strongSession i x → MissedWrite j x
  /-- a query of it does not return a key that `x` upserts -/
  | omitted {m k p} : x ≠ j → Omits H j m k → UpsertAt H x p k → MissedWrite j x

/-- Two writers of a key that missed each other, or a cycle of sights in which at
most every second step is a miss. -/
inductive Anomaly : Prop
  | lostUpdate {k i j} : (workload H).writes k i → (workload H).writes k j →
      MissedWrite H histories strongSession i j →
    MissedWrite H histories strongSession j i → Anomaly
  | cycle {i} : Relation.TransGen
      (Hop (Saw H histories strongSession) (MissedWrite H histories strongSession)) i i → Anomaly

variable {H histories strongSession}

/-- Two readers see the writes of two transactions in opposite orders. -/
theorem Anomaly.longFork {x y j l : Nat} (hx : Saw H histories strongSession x j)
    (hy : MissedWrite H histories strongSession j y)
    (hy' : Saw H histories strongSession y l)
    (hx' : MissedWrite H histories strongSession l x) : Anomaly H histories strongSession :=
  .cycle (i := x) (.tail (.single ⟨j, hx, .inr hy⟩) ⟨l, hy', .inr hx'⟩)

variable [LinearOrder Event] [ToString κ] {initial : Option (Dict κ Value)}
  {limit : Nat × Nat → Nat} {fin : Script}

theorem Saw.lt (h : Explained H (KnownStep H histories strongSession initial limit fin))
    {i j : Nat} (hij : Saw H histories strongSession i j) :
    Event.c i < Event.s j ∧ j < H.length := by
  have hstep :
      ∀ i j, ((∃ k, (workload H).readsFrom k i j) ∨
        (strongSession = true ∧ Consecutive histories i j ∧ j < H.length)) →
      Event.c i < Event.s j ∧ j < H.length := by
    intro i j hd
    cases hd with
    | inl hr =>
      obtain ⟨k, v, hw, hr⟩ := hr
      exact ⟨h.legal.reads ⟨v, hw, hr⟩, hr.lt.2⟩
    | inr hs =>
      obtain ⟨hs, hc, hj⟩ := hs
      exact ⟨h.known ⟨i, j, .cb⟩ (.session hs hc), hj⟩
  induction hij with
  | single hd => exact hstep _ _ hd
  | tail _ hd ih =>
    obtain ⟨hlt, hj⟩ := hstep _ _ hd
    exact ⟨ih.1.trans ((h.begins _ ih.2).trans hlt), hj⟩

theorem MissedWrite.lt (h : Explained H (KnownStep H histories strongSession initial limit fin))
    (hi : initialState H = .ok initial) {j x : Nat}
    (hm : MissedWrite H histories strongSession j x) : Event.s j < Event.c x := by
  cases hm with
  | initial hne hst hf hr hno hw =>
    obtain rfl : initial = _ := Except.ok.inj (hi.symm.trans hst)
    exact h.known ⟨j, x, .rw⟩ (.initialOther hr hno hf hw hne)
  | omitted hne hom hu => exact h.known ⟨j, x, .rw⟩ (.omitted hom hu hne)
  | overwritten hne hxi hr hw hs =>
    obtain ⟨hlt, hx⟩ := hs.lt h
    cases h.legal.others hr hw hxi hne with
    | inr hlt' => exact hlt'
    | inl hback =>
      obtain ⟨_, hv, _⟩ := hr
      exact absurd (hlt.trans ((h.begins _ hx).trans hback)) (lt_asymm (h.begins _ hv.lt.2))

/-- An explained history has no anomaly. -/
theorem Explained.not_anomaly
    (h : Explained H (KnownStep H histories strongSession initial limit fin))
    (hi : initialState H = .ok initial) : ¬ Anomaly H histories strongSession := by
  intro ha
  cases ha with
  | @lostUpdate k i j hwi hwj hij hji =>
    have hlt := hij.lt h hi
    have hlt' := hji.lt h hi
    have hne : i ≠ j := by
      intro he
      subst he
      cases hij with
      | initial hne _ _ _ _ _ => exact hne rfl
      | overwritten hne _ _ _ _ => exact hne rfl
      | omitted hne _ _ => exact hne rfl
    cases h.legal.apart hwi hwj hne with
    | inl hb => exact lt_asymm hb hlt'
    | inr hb => exact lt_asymm hb hlt
  | cycle hc =>
    refine acyclic_of_map Event.c (fun i j hop => ?_) _ hc
    apply Hop.lt (s := Event.s) ?_ (fun _ _ hm => hm.lt h hi) hop
    intro i k hs
    obtain ⟨hlt, hn⟩ := hs.lt h
    exact ⟨hlt, h.begins k hn⟩

end Sights

/-- The written versions of the transactions of a closed history are evaluated. -/
theorem not_has_of_summaries {κ : Type} [LinearOrder κ] {H : List (Entry (Mop κ Value))}
    {k : κ} {v : Value}
    (h : ∀ p ∈ txns H, (extWritesFn p.1).toOption.bind (·.get? k) ≠ some v)
    (i : Nat) : ¬ Has extWritesFn H i k v := by
  intro hw
  obtain ⟨txn, m, ht, hm, hv⟩ := hw
  apply h (txn, i) ((mem_txns H txn i).mpr ht)
  rw [hm]
  exact hv

section Verdicts

variable {κ : Type} [LinearOrder κ] [ToString κ] {H : List (Entry (Mop κ Value))}
  {histories : List (List (Entry (Mop κ Value)))} {strongSession hasFinal : Bool}

theorem catchReject_eq_true {x : Except Err Bool} : catchReject x = .ok true ↔ x = .ok true := by
  cases x with
  | ok b => rfl
  | error e => cases e <;> simp [catchReject]

theorem algo4_eq_true {o : SetOrder} {monosat : GraphSat.Oracle} :
    algo4 o monosat H histories strongSession hasFinal = .ok true ↔
      ∃ G, AdyaSI.constructGraphFromLog o H histories strongSession hasFinal = .ok G ∧
      GraphSat.Satisfiable
        (MonoBCPolyGraphChecker.check G.nNodes (G.edgeList o) (o.iter G.edgePairs)
          (some G.extKey2writes)) := by
  rw [algo4, mainAlgo0124, catchReject_eq_true, bind_eq_ok]
  simp [ArgumentedPolyGraph.get4tuples, monosat.solve_iff]

theorem algo5_eq_true {o : SetOrder} {monosat : GraphSat.Oracle} :
    algo5 o monosat H histories strongSession hasFinal = .ok true ↔
      ∃ g con, AdyaSIChain.constructEncoding o H histories strongSession hasFinal = .ok (g, con) ∧
        GraphSat.Satisfiable (MonoBCPolyGraphCheckerOptimized.check o g con) := by
  rw [algo5, mainAlgo35, catchReject_eq_true, bind_eq_ok]
  simp [monosat.solve_iff]

/-- Algorithm 4 accepts no history with an anomaly. -/
theorem algo4_refuses_anomaly (o : SetOrder) (monosat : GraphSat.Oracle)
    (H : List (Entry (Mop κ Value)))
    (histories : List (List (Entry (Mop κ Value)))) (strongSession hasFinal : Bool)
    (ha : Anomaly H histories strongSession) :
    algo4 o monosat H histories strongSession hasFinal ≠ .ok true := by
  intro h
  obtain ⟨G, hG, hsat⟩ := algo4_eq_true.mp h
  obtain ⟨t, ht, hb⟩ := AdyaSI.built_of_ok hG
  obtain ⟨_, hex⟩ := (hb.satisfiable_iff ht).mp hsat
  exact hex.not_anomaly ht.initial ha

section Example

/-- Two writers, and two readers that see one write each. -/
def forkedReads : List (Entry (Mop Nat Value)) :=
  [⟨0, none⟩, ⟨1, some [.w 1 (.int 5) true]⟩, ⟨2, some [.w 2 (.int 6) true]⟩,
    ⟨3, some [.r 1 (.int 5) false, .r 2 (.int 0) false]⟩,
    ⟨4, some [.r 2 (.int 6) false, .r 1 (.int 0) false]⟩]

theorem anomaly_forkedReads : Anomaly forkedReads [] false := by
  have hwrite₁ : Has extWritesFn forkedReads 1 1 (.int 5) :=
    ⟨_, _, ⟨by decide, _, rfl, rfl⟩, rfl, rfl⟩
  have hwrite₂ : Has extWritesFn forkedReads 2 2 (.int 6) :=
    ⟨_, _, ⟨by decide, _, rfl, rfl⟩, rfl, rfl⟩
  have hsees₃ : Saw forkedReads [] false 1 3 :=
    .single (.inl ⟨1, .int 5, hwrite₁, _, _, ⟨by decide, _, rfl, rfl⟩, rfl, rfl⟩)
  have hsees₄ : Saw forkedReads [] false 2 4 :=
    .single (.inl ⟨2, .int 6, hwrite₂, _, _, ⟨by decide, _, rfl, rfl⟩, rfl, rfl⟩)
  apply Anomaly.longFork hsees₃ ?_ hsees₄ ?_
  · exact .initial (k := 2) (v := .int 0) (by decide) rfl rfl
      ⟨_, _, ⟨by decide, _, rfl, rfl⟩, rfl, rfl⟩ (not_has_of_summaries (by decide)) hwrite₂
  · exact .initial (k := 1) (v := .int 0) (by decide) rfl rfl
      ⟨_, _, ⟨by decide, _, rfl, rfl⟩, rfl, rfl⟩ (not_has_of_summaries (by decide)) hwrite₁

theorem algo4_refuses_anomaly_fork : Anomaly forkedReads [] false ∧
    algo4 .stored .exact forkedReads [] false false ≠ .ok true :=
  ⟨anomaly_forkedReads, algo4_refuses_anomaly .stored .exact forkedReads
    [] false false anomaly_forkedReads⟩

end Example

/-- Neither does algorithm 5. -/
theorem algo5_refuses_anomaly (o : SetOrder) (monosat : GraphSat.Oracle)
    (H : List (Entry (Mop κ Value)))
    (histories : List (List (Entry (Mop κ Value)))) (strongSession hasFinal : Bool)
    (ha : Anomaly H histories strongSession) :
    algo5 o monosat H histories strongSession hasFinal ≠ .ok true := by
  intro h
  obtain ⟨g, con, hg, hsat⟩ := algo5_eq_true.mp h
  obtain ⟨t, known, chains, ht, hb, hc, hp, rfl⟩ := AdyaSIChain.encoded_of_ok hg
  obtain ⟨_, hex⟩ := (hb.satisfiable_iff ht hc hp).mp hsat
  exact hex.not_anomaly ht.initial ha

section Example

/-- Two transactions read the same version and overwrite it. -/
def lostUpdates : List (Entry (Mop Nat Value)) :=
  [⟨0, none⟩, ⟨1, some [.w 1 (.int 5) true]⟩, ⟨2, some [.r 1 (.int 5) false, .w 1 (.int 6) true]⟩,
    ⟨3, some [.r 1 (.int 5) false, .w 1 (.int 7) true]⟩]

theorem anomaly_lostUpdates : Anomaly lostUpdates [] false := by
  have hwrite₁ : Has extWritesFn lostUpdates 1 1 (.int 5) :=
    ⟨_, _, ⟨by decide, _, rfl, rfl⟩, rfl, rfl⟩
  have hwrite₂ : Has extWritesFn lostUpdates 2 1 (.int 6) :=
    ⟨_, _, ⟨by decide, _, rfl, rfl⟩, rfl, rfl⟩
  have hwrite₃ : Has extWritesFn lostUpdates 3 1 (.int 7) :=
    ⟨_, _, ⟨by decide, _, rfl, rfl⟩, rfl, rfl⟩
  have hread₂ : (workload lostUpdates).readsFrom 1 1 2 :=
    ⟨.int 5, hwrite₁, _, _, ⟨by decide, _, rfl, rfl⟩, rfl, rfl⟩
  have hread₃ : (workload lostUpdates).readsFrom 1 1 3 :=
    ⟨.int 5, hwrite₁, _, _, ⟨by decide, _, rfl, rfl⟩, rfl, rfl⟩
  apply Anomaly.lostUpdate (k := 1) (i := 2) (j := 3) ⟨_, hwrite₂⟩ ⟨_, hwrite₃⟩
  · exact .overwritten (by decide) (by decide) hread₂ ⟨_, hwrite₃⟩ (.single (.inl ⟨1, hread₃⟩))
  · exact .overwritten (by decide) (by decide) hread₃ ⟨_, hwrite₂⟩ (.single (.inl ⟨1, hread₂⟩))

theorem algo5_refuses_anomaly_lost : Anomaly lostUpdates [] false ∧
    algo5 .stored .exact lostUpdates [] false false ≠ .ok true :=
  ⟨anomaly_lostUpdates, algo5_refuses_anomaly .stored .exact lostUpdates
    [] false false anomaly_lostUpdates⟩

end Example

end Verdicts

end Viper
