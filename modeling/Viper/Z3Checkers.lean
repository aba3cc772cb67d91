import Viper.Polygraph
import Viper.SnapshotIsolation

/-!
# The Z3 encodings agree with the BC encoding

Both Z3 checkers are satisfied by the polygraph of a plain builder exactly when
some order of the events respects it. One direction reads relations and
timestamps off the order; the other extends the relation of a model.
-/
namespace Viper

open Py Precedence

section Relations

variable {n : Nat}

/-- A transitive relation without loops on the events of the history extends to
an order, in which all other events come last. -/
theorem exists_extension {R : Interp} (htrans : ∀ {u v w}, R u v → R v w → R u w)
    (hirrefl : ∀ a : Event, a.idx < n → ¬ R a.num a.num) :
    ∃ _ : LinearOrder Event, ∀ {a b : Event}, a.idx < n → R a.num b.num → a < b := by
  let q : Event → Event → Prop := fun a b => a.idx < n ∧ b.idx < n ∧ R a.num b.num
  have hq : Acyclic q := by
    have path : ∀ a b, Relation.TransGen q a b → q a b := by
      intro a b hab
      induction hab with
      | single h => exact h
      | tail _ h' ih => exact ⟨ih.1, h'.2.1, htrans ih.2.2 h'.2.2⟩
    exact fun a ha => hirrefl a (path a a ha).1 (path a a ha).2.2
  let level : Event → Nat := fun a => if a.idx < n then 0 else 1
  obtain ⟨lo, hlt⟩ := acyclic_iff_linearOrder.mp
    (acyclic_of_levels level id hq (r := fun a b => level a < level b ∨ (level a = level b ∧ q a b))
      (fun _ _ h => h))
  refine ⟨lo, fun {a b} ha hab => hlt _ _ ?_⟩
  by_cases hb : b.idx < n
  · exact .inr ⟨by simp [level, ha, hb], ha, hb, hab⟩
  · exact .inl (by simp [level, ha, hb])

/-- An order of the events as a relation on their numbers. -/
def orderInterp [LinearOrder Event] : Interp := fun u v => 0 < u ∧ 0 < v ∧ numEvent u < numEvent v

theorem orderInterp_num [LinearOrder Event] (a b : Event) : orderInterp a.num b.num ↔ a < b := by
  simp only [orderInterp, numEvent_num, a.num_pos, b.num_pos, true_and]

theorem orderInterp_trans [LinearOrder Event] {u v w : Int} (h₁ : orderInterp u v)
    (h₂ : orderInterp v w) :
    orderInterp u w := ⟨h₁.1, h₂.2.1, h₁.2.2.trans h₂.2.2⟩

end Relations

namespace Z3GeneralSIChecker

theorem addEdge_iff (e : Edge) (R : Interp) : addEdge e R ↔ R e.before.1.num e.before.2.num := by
  obtain ⟨src, dst, type⟩ := e
  cases type <;> rfl

/-- What a model of the general-SI encoding satisfies. -/
structure Model (n : Nat) (E : List Edge) (P : List (Edge × Edge)) (R : Interp) : Prop where
  begins : ∀ i, i < n → R (si i) (ci i)
  trans : ∀ {u v w}, R u v → R v w → R u w
  known : ∀ e ∈ E, R e.before.1.num e.before.2.num
  pairs : ∀ p ∈ P, ∀ f, pair p = .ok f → f R
  irrefl : ∀ a : Event, a.idx < n → ¬ R a.num a.num

variable {n : Nat} {E : List Edge} {P : List (Edge × Edge)}

theorem check_sat_iff (hP : ∀ p ∈ P, ∃ f, pair p = .ok f) :
    ∃ fs, check n E P = .ok fs ∧ (Sat fs ↔ ∃ R, Model n E P R) := by
  obtain ⟨fs, hfs, hm⟩ := mapM_spec hP
  refine ⟨_, by rw [check, hfs]; rfl, exists_congr fun R => ?_⟩
  simp only [List.mem_append, List.mem_map, List.mem_range, List.mem_singleton, hm,
    List.mem_range'_1]
  constructor
  · intro h
    refine ⟨fun i hi => ?_, fun {u v w} h₁ h₂ => ?_,
      fun e he => ?_, fun p hp f hf => ?_, fun a ha => ?_⟩
    · exact h _ (.inl (.inl (.inl (.inl ⟨i, hi, rfl⟩))))
    · exact h _ (.inl (.inl (.inl (.inr rfl)))) u v w ⟨h₁, h₂⟩
    · exact (addEdge_iff e R).mp (h _ (.inl (.inl (.inr ⟨e, he, rfl⟩))))
    · exact h _ (.inl (.inr ⟨p, hp, hf⟩))
    · refine h (fun R => ¬ R a.num a.num) (.inr ⟨a.num, ?_, rfl⟩)
      have h₁ := Event.num_le ha
      have h₂ := a.num_pos
      simp only [si, ci]
      omega
  · intro h f hf
    rcases hf with (((⟨i, hi, rfl⟩ | rfl) | ⟨e, he, rfl⟩) | ⟨p, hp, hf⟩) | ⟨u, hu, rfl⟩
    · exact h.begins i hi
    · exact fun u v w huv => h.trans huv.1 huv.2
    · exact (addEdge_iff e R).mpr (h.known e he)
    · exact h.pairs p hp f hf
    · simp only [si, ci] at hu
      obtain ⟨a, ha, rfl⟩ := Event.exists_num (n := n) (u := u) (by omega) (by omega)
      exact h.irrefl a ha

theorem pair_read (x i j : Nat) :
    pair (⟨x, i, .ww⟩, ⟨j, x, .rw⟩) = .ok (fun R => Xor (R (ci x) (ci i)) (R (si j) (ci x))) ∧
      pair (⟨j, x, .rw⟩, ⟨x, i, .ww⟩) = .ok (fun R => Xor (R (ci x) (ci i)) (R (si j) (ci x))) := by
  constructor <;> simp [pair]

theorem pair_write (i j : Nat) :
    pair (⟨i, j, .ww⟩, ⟨j, i, .ww⟩) = .ok (fun R => Xor (R (ci i) (si j)) (R (ci j) (si i))) := by
  simp [pair, require]

theorem exists_pair (hP : Paired n E P) : ∀ p ∈ P, ∃ f, pair p = .ok f := by
  intro p hp
  rcases hP.pairs p hp with ⟨x, i, j, _, rfl | rfl⟩ | ⟨i, j, _, _, _, _, _, rfl⟩
  · exact ⟨_, (pair_read x i j).1⟩
  · exact ⟨_, (pair_read x i j).2⟩
  · exact ⟨_, pair_write i j⟩

/-- A model, restricted to the events of the history, extends to an order. -/
theorem exists_order (hP : Paired n E P) {R : Interp} (h : Model n E P R) :
    ∃ _ : LinearOrder Event, PairOrder n E P := by
  obtain ⟨lo, hR⟩ := exists_extension (n := n) (R := R) h.trans h.irrefl
  refine ⟨lo, fun i hi => hR hi (h.begins i hi), fun e he => ?_, fun p hp => ?_⟩
  · exact hR (by rw [e.idx_src]; exact hP.src_lt e he) (h.known e he)
  · have hwrite : ∀ {x i}, ApartIn P x i → Xor (R (ci x) (si i)) (R (ci i) (si x)) := by
      rintro x i (hm | hm)
      · exact h.pairs _ hm _ (pair_write x i)
      · exact (h.pairs _ hm _ (pair_write i x)).symm
    have hread : ∀ {x i j}, ReadShape n E P x i j → Xor (R (ci x) (ci i)) (R (si j) (ci x)) →
        Event.c x < Event.s i ∨ Event.s j < Event.c x := by
      rintro x i j hs (⟨hxi, _⟩ | ⟨hjx, _⟩)
      · left
        rcases hwrite hs.apart with ⟨h₁, _⟩ | ⟨h₁, _⟩
        · exact hR (a := .c x) (b := .s i) hs.lt.1 h₁
        · -- the opposite order of the writers would close a cycle of commits
          exact absurd (h.trans (h.trans h₁ (h.begins x hs.lt.1)) hxi) (h.irrefl (.c i) hs.lt.2.1)
      · exact .inr (hR (a := .s j) (b := .c x) hs.lt.2.2 hjx)
    rcases hP.pairs p hp with ⟨x, i, j, hs, rfl | rfl⟩ | ⟨i, j, hi, hj, _, _, _, rfl⟩
    · exact hread hs (h.pairs _ hp _ (pair_read x i j).1)
    · exact (hread hs (h.pairs _ hp _ (pair_read x i j).2)).symm
    · rcases h.pairs _ hp _ (pair_write i j) with ⟨h₁, _⟩ | ⟨h₁, _⟩
      · exact .inl (hR (a := .c i) (b := .s j) hi h₁)
      · exact .inr (hR (a := .c j) (b := .s i) hj h₁)

/-- The order itself is a model. -/
theorem exists_model (hP : Paired n E P) [LinearOrder Event] (h : PairOrder n E P) :
    ∃ R, Model n E P R := by
  let R : Interp := orderInterp
  have hR : ∀ a b : Event, R a.num b.num ↔ a < b := orderInterp_num
  have hread : ∀ {x i j}, ReadShape n E P x i j → (Event.c x < Event.s i ∨ Event.s j < Event.c x) →
      Xor (R (ci x) (ci i)) (R (si j) (ci x)) := by
    intro x i j hs hor
    have h₁ := h.begins i hs.lt.2.1
    have h₂ := h.reads hs
    have hc := hR (.c x) (.c i)
    have hsj := hR (.s j) (.c x)
    simp only [Event.num] at hc hsj
    rw [hc, hsj]
    rcases hor with hxi | hjx
    · exact .inl ⟨by order, by order⟩
    · exact .inr ⟨hjx, by order⟩
  have hwrite : ∀ {i j}, i < n → j < n → (Event.c i < Event.s j ∨ Event.c j < Event.s i) →
      Xor (R (ci i) (si j)) (R (ci j) (si i)) := by
    intro i j hi hj hor
    have h₁ := h.begins i hi
    have h₂ := h.begins j hj
    have hij := hR (.c i) (.s j)
    have hji := hR (.c j) (.s i)
    simp only [Event.num] at hij hji
    rw [hij, hji]
    rcases hor with hlt | hlt
    · exact .inl ⟨hlt, by order⟩
    · exact .inr ⟨hlt, by order⟩
  refine ⟨R, fun i hi => (hR (.s i) (.c i)).mpr (h.begins i hi), orderInterp_trans,
    fun e he => (hR _ _).mpr (h.known e he),
    fun p hp f hf => ?_, fun a _ ha => lt_irrefl _ ((hR a a).mp ha)⟩
  have hor := h.pairs p hp
  rcases hP.pairs p hp with ⟨x, i, j, hs, rfl | rfl⟩ | ⟨i, j, hi, hj, _, _, _, rfl⟩
  · rw [(pair_read x i j).1] at hf
    cases hf
    exact hread hs hor
  · rw [(pair_read x i j).2] at hf
    cases hf
    exact hread hs hor.symm
  · rw [pair_write] at hf
    cases hf
    exact hwrite hi hj hor

end Z3GeneralSIChecker

namespace Z301Checker

variable {n : Nat} {E : List Edge} {P : List (Edge × Edge)}

/-- The timestamp that a model gives to an event. -/
def eventTime (m : AdyaModel) : Event → Int
  | .s i => m.b i
  | .c i => m.c i

theorem timeDep_iff (m : AdyaModel) (e : Edge) :
    m.timeDep e ↔ eventTime m e.before.1 < eventTime m e.before.2 := by
  obtain ⟨src, dst, type⟩ := e
  cases type <;> simp [AdyaModel.timeDep, Edge.before, eventTime]

/-- A model of the constraints without a write order. -/
structure Model (n : Nat) (E : List Edge) (P : List (Edge × Edge)) (m : AdyaModel) : Prop where
  begins : ∀ i, i < n → m.b i < m.c i
  distinct : (m.timestamps n).Nodup
  trans : ∀ v0 v1 v2, m.WRWW v0 v1 ∧ m.WRWW v1 v2 → m.WRWW v0 v2
  known : ∀ e ∈ E, m.rel e.type e.src e.dst ∧ m.timeDep e
  pairs : ∀ p ∈ P, Xor (m.rel p.1.type p.1.src p.1.dst ∧ m.timeDep p.1)
    (m.rel p.2.type p.2.src p.2.dst ∧ m.timeDep p.2)
  irrefl : ∀ i : Nat, i < n → ¬ m.WRWW i i
  short : ∀ q ∈ pairsOf (List.range n), ¬ (m.WRWW q.1 q.2 ∧ m.RW q.2 q.1)

theorem forall_check_iff {κ : Type} {m : AdyaModel} :
    (∀ f ∈ check n E P (none : Option (Dict κ (List Nat))), f m) ↔ Model n E P m := by
  simp only [check, List.append_nil, List.mem_append, List.mem_map, List.mem_flatMap,
    List.mem_range, List.mem_cons, List.not_mem_nil, or_false]
  constructor
  · intro h
    refine ⟨fun i hi => ?_, ?_, ?_, fun e he => ⟨?_, ?_⟩,
      fun p hp => ?_, fun i hi => ?_, fun q hq => ?_⟩
    · exact h _ (.inl (.inl (.inl (.inl (.inl ⟨i, hi, rfl⟩)))))
    · exact h _ (.inl (.inl (.inl (.inl (.inr (.inl rfl))))))
    · exact h _ (.inl (.inl (.inl (.inl (.inr (.inr rfl))))))
    · exact h _ (.inl (.inl (.inl (.inr ⟨e, he, .inl rfl⟩))))
    · exact h _ (.inl (.inl (.inl (.inr ⟨e, he, .inr rfl⟩))))
    · exact h _ (.inl (.inl (.inr ⟨p, hp, rfl⟩)))
    · exact h _ (.inl (.inr ⟨i, hi, rfl⟩))
    · exact h _ (.inr ⟨q, hq, rfl⟩)
  · intro h f hf
    rcases hf with
      ((((⟨i, hi, rfl⟩ | rfl | rfl) | ⟨e, he, rfl | rfl⟩) | ⟨p, hp, rfl⟩) | ⟨i, hi, rfl⟩) |
        ⟨q, hq, rfl⟩
    · exact h.begins i hi
    · exact h.distinct
    · exact h.trans
    · exact (h.known e he).1
    · exact (h.known e he).2
    · exact h.pairs p hp
    · exact h.irrefl i hi
    · exact h.short q hq

/-- The timestamps of a model order the events. -/
theorem exists_order {κ : Type} (h : Sat (check n E P (none : Option (Dict κ (List Nat))))) :
    ∃ _ : LinearOrder Event, PairOrder n E P := by
  obtain ⟨m, hm⟩ := h
  have h := forall_check_iff.mp hm
  refine exists_order_of_times (eventTime m) h.begins (fun e he => ?_) (fun p hp => ?_)
  · exact (timeDep_iff m e).mp (h.known e he).2
  · rw [← timeDep_iff, ← timeDep_iff]
    rcases h.pairs p hp with ⟨⟨_, h₁⟩, _⟩ | ⟨⟨_, h₂⟩, _⟩
    · exact .inl h₁
    · exact .inr h₂

/-- Dependencies read off an order of the events. -/
noncomputable def orderModel [LinearOrder Event] (n : Nat) : AdyaModel where
  b i := timestamp n (.s i)
  c i := timestamp n (.c i)
  WRWW u v := u.toNat < n ∧ Event.c u.toNat < Event.s v.toNat
  RW u v := Event.s u.toNat < Event.c v.toNat

section Model

variable [LinearOrder Event]

theorem nodup_timestamps : ((orderModel n).timestamps n).Nodup := by
  have hmap : (orderModel n).timestamps n =
      ((List.range n).flatMap fun i => [Event.s i, Event.c i]).map
        fun a => ((timestamp n a : Nat) : Int) := by
    rw [AdyaModel.timestamps, List.map_flatMap]
    rfl
  have hmem : ∀ a ∈ (List.range n).flatMap (fun i => [Event.s i, Event.c i]), a.idx < n := by
    intro a ha
    simp only [List.mem_flatMap, List.mem_range, List.mem_cons, List.not_mem_nil, or_false] at ha
    obtain ⟨i, hi, rfl | rfl⟩ := ha <;> exact hi
  rw [hmap]
  refine List.Nodup.map_on (fun a ha b hb h => ?_) ?_
  · exact timestamp_inj (hmem a ha) (hmem b hb) (Int.ofNat.inj h)
  · rw [List.nodup_flatMap]
    refine ⟨fun i _ => by simp, List.nodup_range.imp (fun {i j} hne => ?_)⟩
    simp [Function.onFun, Ne.symm hne]

theorem orderModel_edge {e : Edge} (hn : e.src < n) (he : e.Holds) :
    (orderModel n).rel e.type e.src e.dst ∧ (orderModel n).timeDep e := by
  have ht : timestamp n e.before.1 < timestamp n e.before.2 :=
    timestamp_lt (by rw [e.idx_src]; exact hn) he
  obtain ⟨src, dst, type⟩ := e
  cases type with
  | rw => exact ⟨he, Int.ofNat_lt.mpr ht⟩
  | wr | ww | cb => exact ⟨⟨hn, he⟩, Int.ofNat_lt.mpr ht⟩

/-- A time dependency inside the history is the order of its events. -/
theorem holds_of_timeDep {e : Edge} (hs : e.src < n) (hd : e.dst < n)
    (h : (orderModel n).timeDep e) : e.Holds := by
  obtain ⟨src, dst, type⟩ := e
  cases type <;> exact (timestamp_lt_iff (a := Edge.before _ |>.1) hs hd).mp (Int.ofNat_lt.mp h)

/-- The two sides of a pair are not both ordered. -/
theorem not_both (hP : Paired n E P) (h : PairOrder n E P) {p : Edge × Edge} (hp : p ∈ P) :
    (p.1.src < n ∧ p.1.dst < n ∧ p.2.src < n ∧ p.2.dst < n) ∧ ¬ (p.1.Holds ∧ p.2.Holds) := by
  rcases hP.pairs p hp with ⟨x, i, j, hs, rfl | rfl⟩ | ⟨i, j, hi, hj, _, _, _, rfl⟩
  · refine ⟨⟨hs.lt.1, hs.lt.2.1, hs.lt.2.2, hs.lt.1⟩, fun ⟨h₁, h₂⟩ => ?_⟩
    exact lt_asymm (h.excludes hs h₁) h₂
  · refine ⟨⟨hs.lt.2.2, hs.lt.1, hs.lt.1, hs.lt.2.1⟩, fun ⟨h₁, h₂⟩ => ?_⟩
    exact lt_asymm (h.excludes hs h₂) h₁
  · refine ⟨⟨hi, hj, hj, hi⟩, fun ⟨h₁, h₂⟩ => ?_⟩
    have h₃ : Event.c i < Event.s j := h₁
    have h₄ : Event.c j < Event.s i := h₂
    have h₅ := h.begins i hi
    have h₆ := h.begins j hj
    order

theorem orderModel_pair (hP : Paired n E P) (h : PairOrder n E P) {p : Edge × Edge} (hp : p ∈ P) :
    Xor ((orderModel n).rel p.1.type p.1.src p.1.dst ∧ (orderModel n).timeDep p.1)
      ((orderModel n).rel p.2.type p.2.src p.2.dst ∧ (orderModel n).timeDep p.2) := by
  obtain ⟨⟨hs₁, hd₁, hs₂, hd₂⟩, hnot⟩ := not_both hP h hp
  rcases h.pairs p hp with h₁ | h₂
  · exact .inl ⟨orderModel_edge hs₁ h₁, fun hb => hnot ⟨h₁, holds_of_timeDep hs₂ hd₂ hb.2⟩⟩
  · exact .inr ⟨orderModel_edge hs₂ h₂, fun hb => hnot ⟨holds_of_timeDep hs₁ hd₁ hb.2, h₂⟩⟩

theorem sat_of_order {κ : Type} (hP : Paired n E P) (h : PairOrder n E P) :
    Sat (check n E P (none : Option (Dict κ (List Nat)))) := by
  refine ⟨orderModel n, forall_check_iff.mpr ⟨fun i hi => ?_, nodup_timestamps, ?_, fun e he => ?_,
    fun p hp => orderModel_pair hP h hp, fun i hi hc => ?_, fun q hq hc => ?_⟩⟩
  · exact Int.ofNat_lt.mpr (timestamp_lt hi (h.begins i hi))
  · rintro u v w ⟨⟨hu, h₁⟩, hv, h₂⟩
    have h₃ := h.begins _ hv
    exact ⟨hu, by order⟩
  · exact orderModel_edge (hP.src_lt e he) (h.known e he)
  · have hlt : Event.c i < Event.s i := hc.2
    exact lt_asymm hlt (h.begins i hi)
  · have h₁ : Event.c q.1 < Event.s q.2 := hc.1.2
    have h₂ : Event.s q.2 < Event.c q.1 := hc.2
    exact lt_asymm h₁ h₂

end Model

end Z301Checker

section General

variable {κ : Type} [LinearOrder κ] [ToString κ]

/-- The general-SI encoding agrees with the BC encoding on every graph of the
plain builder. -/
theorem z3General_agrees (o : SetOrder) (H : List (Entry (Mop κ Value)))
    (histories : List (List (Entry (Mop κ Value)))) (strongSession : Bool)
    (G : ArgumentedPolyGraph κ)
    (hG : AdyaSI.constructGraphFromLog o H histories strongSession false = .ok G) :
    let (n, edges, edgePairs, extWrites) := G.get4tuples o
    ∃ assertions, Z3GeneralSIChecker.check n edges edgePairs = .ok assertions ∧
      (Sat assertions ↔ GraphSat.Satisfiable
        (MonoBCPolyGraphChecker.check n edges edgePairs (some extWrites))) := by
  obtain ⟨t, ht, hb⟩ := AdyaSI.built_of_ok hG
  have hP := hb.paired ht
  obtain ⟨fs, hfs, hsat⟩ := Z3GeneralSIChecker.check_sat_iff (n := G.nNodes) (E := G.edgeList o)
    (Z3GeneralSIChecker.exists_pair hP)
  refine ⟨fs, hfs, hsat.trans (Iff.trans ⟨?_, ?_⟩ (hb.pairOrder_iff ht).symm)⟩
  · rintro ⟨R, hR⟩
    exact Z3GeneralSIChecker.exists_order hP hR
  · rintro ⟨_, h⟩
    exact Z3GeneralSIChecker.exists_model hP h

theorem z3General_agrees_small :
    ∃ G, AdyaSI.constructGraphFromLog .stored smallHistory smallSessions true false = .ok G ∧
      let (n, edges, edgePairs, extWrites) := G.get4tuples .stored
      ∃ assertions, Z3GeneralSIChecker.check n edges edgePairs = .ok assertions ∧
        (Sat assertions ↔
          GraphSat.Satisfiable
            (MonoBCPolyGraphChecker.check n edges edgePairs (some extWrites))) := by
  obtain ⟨G, hG⟩ := small_built
  exact ⟨G, hG, z3General_agrees .stored smallHistory smallSessions true G hG⟩

/-- The Adya-SI timestamp encoding agrees with the BC encoding on every graph of
the plain builder. -/
theorem z301_agrees (o : SetOrder) (H : List (Entry (Mop κ Value)))
    (histories : List (List (Entry (Mop κ Value)))) (strongSession : Bool)
    (G : ArgumentedPolyGraph κ)
    (hG : AdyaSI.constructGraphFromLog o H histories strongSession false = .ok G) :
    let (n, edges, edgePairs, extWrites) := G.get4tuples o
    Sat (Z301Checker.check n edges edgePairs (none : Option (Dict κ (List Nat)))) ↔
      GraphSat.Satisfiable (MonoBCPolyGraphChecker.check n edges edgePairs (some extWrites)) := by
  obtain ⟨t, ht, hb⟩ := AdyaSI.built_of_ok hG
  refine Iff.trans ⟨Z301Checker.exists_order, ?_⟩ (hb.pairOrder_iff ht).symm
  rintro ⟨_, h⟩
  exact Z301Checker.sat_of_order (hb.paired ht) h

theorem z301_agrees_small :
    ∃ G, AdyaSI.constructGraphFromLog .stored smallHistory smallSessions true false = .ok G ∧
      let (n, edges, edgePairs, extWrites) := G.get4tuples .stored
      (Sat (Z301Checker.check n edges edgePairs (none : Option (Dict Nat (List Nat)))) ↔
        GraphSat.Satisfiable
          (MonoBCPolyGraphChecker.check n edges edgePairs (some extWrites))) := by
  obtain ⟨G, hG⟩ := small_built
  exact ⟨G, hG, z301_agrees .stored smallHistory smallSessions true G hG⟩

end General

end Viper
