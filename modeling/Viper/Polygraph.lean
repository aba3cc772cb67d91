import Viper.AdyaSISpec

/-!
# The polygraphs of the plain builder

The other checkers of the repository read the same tuple as the BC checker and
agree with it only because of what the builder puts into it: a constraint about
a reader comes with a known edge from the writer to the reader, and with a
constraint on the two writers. `Paired` says so about the tuple alone.
-/
namespace Viper

open Py

/-- Two writers are constrained to one order or the other. -/
def ApartIn (P : List (Edge × Edge)) (x i : Nat) : Prop :=
  (⟨x, i, .ww⟩, ⟨i, x, .ww⟩) ∈ P ∨ (⟨i, x, .ww⟩, ⟨x, i, .ww⟩) ∈ P

/-- Writer `x` comes before writer `i`, or after reader `j` of `i`. -/
structure ReadShape (n : Nat) (E : List Edge) (P : List (Edge × Edge)) (x i j : Nat) : Prop where
  lt : x < n ∧ i < n ∧ j < n
  ne : x ≠ i ∧ x ≠ j
  pos : x ≠ 0 ∧ i ≠ 0
  known : ∃ e ∈ E, e.before = (.c i, .s j)
  apart : ApartIn P x i

structure Paired (n : Nat) (E : List Edge) (P : List (Edge × Edge)) : Prop where
  pos : 0 < n
  src_lt : ∀ e ∈ E, e.src < n
  dst_ne : ∀ e ∈ E, e.dst ≠ 0
  first : ∀ i, 0 < i → i < n → ∃ e ∈ E, e.before = (.c 0, .s i)
  pairs : ∀ p ∈ P,
    (∃ x i j, ReadShape n E P x i j ∧
      (p = (⟨x, i, .ww⟩, ⟨j, x, .rw⟩) ∨ p = (⟨j, x, .rw⟩, ⟨x, i, .ww⟩))) ∨
      ∃ i j, i < n ∧ j < n ∧ i ≠ j ∧ i ≠ 0 ∧ j ≠ 0 ∧ p = (⟨i, j, .ww⟩, ⟨j, i, .ww⟩)

section Order

variable [LinearOrder Event]

/-- An order of the events that respects known edges and one side of every pair. -/
structure PairOrder (n : Nat) (E : List Edge) (P : List (Edge × Edge)) : Prop where
  begins : ∀ i, i < n → Event.s i < Event.c i
  known : ∀ e ∈ E, e.Holds
  pairs : ∀ p ∈ P, p.1.Holds ∨ p.2.Holds

variable {n : Nat} {E : List Edge} {P : List (Edge × Edge)}

theorem PairOrder.first (h : PairOrder n E P) (hP : Paired n E P) {i : Nat} (hi : 0 < i)
    (hn : i < n) :
    Event.c 0 < Event.s i := by
  obtain ⟨e, he, hb⟩ := hP.first i hi hn
  exact (h.known e he).lt hb

theorem PairOrder.apart (h : PairOrder n E P) {x i : Nat} (ha : ApartIn P x i) :
    Event.c x < Event.s i ∨ Event.c i < Event.s x := by
  rcases ha with hm | hm
  · exact h.pairs _ hm
  · exact (h.pairs _ hm).symm

theorem PairOrder.reads (h : PairOrder n E P) {x i j : Nat} (hr : ReadShape n E P x i j) :
    Event.c i < Event.s j := by
  obtain ⟨e, he, hb⟩ := hr.known
  exact (h.known e he).lt hb

/-- The two sides of a reader constraint exclude each other. -/
theorem PairOrder.excludes (h : PairOrder n E P) {x i j : Nat} (hr : ReadShape n E P x i j)
    (hx : Event.c x < Event.s i) : Event.c x < Event.s j := by
  have h₁ := h.begins i hr.lt.2.1
  have h₂ := h.reads hr
  order

end Order

section Timestamps

/-- The events of the first `n` transactions. -/
def eventsBelow (n : Nat) : Finset Event :=
  (Finset.range n).image Event.s ∪ (Finset.range n).image Event.c

theorem mem_eventsBelow {n : Nat} {a : Event} : a ∈ eventsBelow n ↔ a.idx < n := by
  cases a <;> simp [eventsBelow, Event.idx]

theorem card_eventsBelow (n : Nat) : (eventsBelow n).card = 2 * n := by
  rw [eventsBelow, Finset.card_union_of_disjoint]
  · rw [Finset.card_image_of_injective _ (fun _ _ h => Event.s.inj h),
      Finset.card_image_of_injective _ (fun _ _ h => Event.c.inj h), Finset.card_range, Nat.two_mul]
  · rw [Finset.disjoint_left]
    intro a hs hc
    obtain ⟨i, _, rfl⟩ := Finset.mem_image.mp hs
    obtain ⟨j, _, hj⟩ := Finset.mem_image.mp hc
    cases hj

variable [LinearOrder Event] {n : Nat}

/-- Timestamps read off an order: the rank of an event among all events. -/
def timestamp (n : Nat) (a : Event) : Nat := Precedence.rank (eventsBelow n) a

theorem timestamp_lt {a b : Event} (ha : a.idx < n) (h : a < b) : timestamp n a < timestamp n b :=
  Precedence.rank_lt_rank (mem_eventsBelow.mpr ha) h

theorem timestamp_lt_iff {a b : Event} (ha : a.idx < n) (hb : b.idx < n) :
    timestamp n a < timestamp n b ↔ a < b :=
  Precedence.rank_lt_iff (mem_eventsBelow.mpr ha) (mem_eventsBelow.mpr hb)

theorem timestamp_inj {a b : Event} (ha : a.idx < n) (hb : b.idx < n)
    (h : timestamp n a = timestamp n b) :
    a = b :=
  Precedence.rank_inj (mem_eventsBelow.mpr ha) (mem_eventsBelow.mpr hb) h

theorem timestamp_lt_two_mul {a : Event} (ha : a.idx < n) : timestamp n a < 2 * n :=
  card_eventsBelow n ▸ Precedence.rank_lt_card (mem_eventsBelow.mpr ha)

end Timestamps

section FromTimestamps

open Precedence

variable {n : Nat} {E : List Edge} {P : List (Edge × Edge)}

/-- Any assignment of times to events orders them. -/
theorem exists_order_of_times (τ : Event → Int)
    (hb : ∀ i, i < n → τ (.s i) < τ (.c i)) (hE : ∀ e ∈ E, τ e.before.1 < τ e.before.2)
    (hC : ∀ p ∈ P, τ p.1.before.1 < τ p.1.before.2 ∨ τ p.2.before.1 < τ p.2.before.2) :
    ∃ _ : LinearOrder Event, PairOrder n E P := by
  have hq : Acyclic (fun a b => τ a < τ b) := acyclic_of_map τ (fun _ _ h => h)
  obtain ⟨lo, hlt⟩ := acyclic_iff_linearOrder.mp hq
  exact ⟨lo, fun i hi => hlt _ _ (hb i hi), fun e he => hlt _ _ (hE e he),
    fun p hp => (hC p hp).imp (fun h => hlt _ _ h) (fun h => hlt _ _ h)⟩

end FromTimestamps

section Builder

variable {κ : Type} [LinearOrder κ] [ToString κ] {H : List (Entry (Mop κ Value))}
  {histories : List (List (Entry (Mop κ Value)))} {strongSession hasFinal : Bool} {t : Tables κ}
  {o : SetOrder} {G : ArgumentedPolyGraph κ}

open AdyaSI

/-- Edge of the stored list for a known pair of events. -/
theorem AdyaSI.Built.exists_edge (hG : Built o H histories strongSession hasFinal t G) {e : Edge}
    (hk : KnownStep H histories strongSession t.initial Prod.snd (finOf o H hasFinal t)
      (.ok (.edge e))) :
    ∃ e' ∈ G.edgeList o, e'.before = e.before := by
  obtain ⟨src, dst, type, hm, hb⟩ := (hG.before _ _).mpr ⟨e, rfl, hk⟩
  exact ⟨⟨src, dst, type⟩, (G.mem_edgeList o _).mpr ⟨hG.inv.src_lt hm, hm⟩, hb⟩

theorem AdyaSI.Built.readShape (hG : Built o H histories strongSession hasFinal t G) {e f : Edge}
    (h : ReadPair H e f) : ∃ x i j, ReadShape G.nNodes (G.edgeList o) (o.iter G.edgePairs) x i j ∧
      e = ⟨x, i, .ww⟩ ∧ f = ⟨j, x, .rw⟩ := by
  obtain ⟨i, j, x, k, v, v', hi, hj, hx, hxi, hxj, rfl, rfl⟩ := h
  refine ⟨x, i, j, ⟨?_, ⟨hxi, hxj⟩, ⟨?_, ?_⟩, ?_, ?_⟩, rfl, rfl⟩
  · rw [hG.nNodes]
    exact ⟨hx.lt.2, hi.lt.2, hj.lt.2⟩
  · exact Nat.pos_iff_ne_zero.mp hx.lt.1
  · exact Nat.pos_iff_ne_zero.mp hi.lt.1
  · exact hG.exists_edge (.read hi hj)
  · rcases (hG.pairs _ _).mpr (.inr (.inr ⟨x, i, k, v', v, hx, hi, hxi, rfl, rfl⟩)) with hm | hm
    · exact .inl ((SetOrder.mem_iter o _ _).mpr hm)
    · exact .inr ((SetOrder.mem_iter o _ _).mpr hm)

theorem AdyaSI.Built.paired (hG : Built o H histories strongSession hasFinal t G) (ht : t.Of H) :
    Paired G.nNodes (G.edgeList o) (o.iter G.edgePairs) where
  pos := by
    rw [hG.nNodes]
    exact List.length_pos_iff.mpr ht.loaded.1
  src_lt e he := ((G.mem_edgeList o e).mp he).1
  dst_ne e he := hG.inv.dst_ne ((G.mem_edgeList o e).mp he).2
  first i hi hn := hG.exists_edge (e := ⟨0, i, .cb⟩) (.first hi (hG.nNodes ▸ hn))
  pairs p hp := by
    rcases (hG.pairs p.1 p.2).mp (.inl ((SetOrder.mem_iter o _ _).mp hp)) with h | h |
      ⟨i, j, k, v, v', hi, hj, hne, he, hf⟩
    · obtain ⟨x, i, j, hs, he, hf⟩ := hG.readShape h
      exact .inl ⟨x, i, j, hs, .inl (Prod.ext he hf)⟩
    · obtain ⟨x, i, j, hs, he, hf⟩ := hG.readShape h
      exact .inl ⟨x, i, j, hs, .inr (Prod.ext hf he)⟩
    · refine .inr ⟨i, j, ?_, ?_, hne, Nat.pos_iff_ne_zero.mp hi.lt.1,
        Nat.pos_iff_ne_zero.mp hj.lt.1, Prod.ext he hf⟩
      · rw [hG.nNodes]
        exact hi.lt.2
      · rw [hG.nNodes]
        exact hj.lt.2

/-- The writer pairs a BC checker adds on its own are already in the graph. -/
theorem AdyaSI.Built.pairOrder_iff (hG : Built o H histories strongSession hasFinal t G)
    (ht : t.Of H) :
    GraphSat.Satisfiable (MonoBCPolyGraphChecker.check G.nNodes (G.edgeList o) (o.iter G.edgePairs)
        (some G.extKey2writes)) ↔
      ∃ _ : LinearOrder Event, PairOrder G.nNodes (G.edgeList o) (o.iter G.edgePairs) := by
  rw [hG.satisfiable_iff ht]
  refine exists_congr fun _ => ?_
  rw [← hG.ordered_iff]
  constructor
  · intro h
    refine ⟨h.begins, h.known, fun p hp => ?_⟩
    simpa using h.choice ([p.1], [p.2]) (List.mem_append_left _ (List.mem_map.mpr ⟨p, hp, rfl⟩))
  · intro h
    refine ⟨h.begins, fun i hi hn => h.first (hG.paired ht) hi hn, h.known, fun p hp => ?_⟩
    rcases List.mem_append.mp hp with hp | hp
    · obtain ⟨q, hq, rfl⟩ := List.mem_map.mp hp
      simpa using h.pairs q hq
    · obtain ⟨q, hq, rfl⟩ := List.mem_map.mp hp
      obtain ⟨hne, k, v, v', hi, hj⟩ := (hG.writers.pairs q.1 q.2).mp (.inl hq)
      have hp : ApartIn (o.iter G.edgePairs) q.1 q.2 := by
        rcases (hG.pairs _ _).mpr (.inr (.inr ⟨q.1, q.2, k, v, v', hi, hj, hne, rfl, rfl⟩))
          with hm | hm
        · exact .inl ((SetOrder.mem_iter o _ _).mpr hm)
        · exact .inr ((SetOrder.mem_iter o _ _).mpr hm)
      simp only [List.mem_singleton, forall_eq]
      exact h.apart hp

end Builder

end Viper
