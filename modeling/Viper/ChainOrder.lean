import Viper.AdyaSISpec
import Viper.ChainEncoding

/-!
# What the chain encoding asks of an order

The inferred edges and the coalesced constraints of a family of chains hold in
an order of the events exactly when the chains are ordered inside and do not
interleave, readers included.
-/
namespace Viper

open Py Chains Versions

variable {κ : Type} [LinearOrder κ]

/-- The stored readers of every written version. -/
def ReadersOf (readfrom : ReadFrom κ) (W : Workload κ Nat) : Prop :=
  ∀ k a r, W.writes k a → (r ∈ readfrom.getD (k, a) [] ↔ W.readsFrom k a r)

section Shape

variable (o : SetOrder) {W : Workload κ Nat} {link : κ → Nat → Nat → Prop} {chains : ChainTable κ}

theorem ne_nil_coalesceAll (chains : ChainTable κ) (readfrom : ReadFrom κ) :
    ∀ p ∈ coalesceAll o chains readfrom, p.1 ≠ [] ∧ p.2 ≠ [] := by
  intro p hp
  obtain ⟨k, cs, _, C, D, _, rfl⟩ := (mem_coalesceAll o chains readfrom p).mp hp
  exact ⟨genChain2chainEdges_ne_nil o C D k readfrom, genChain2chainEdges_ne_nil o D C k readfrom⟩

/-- A constraint is about two different chains of one key. -/
theorem exists_chains (hC : Chaining W link chains.of) {readfrom : ReadFrom κ} {p : Constraint}
    (hp : p ∈ coalesceAll o chains readfrom) :
    ∃ k C D, C.txns ∈ chains.of k ∧ D.txns ∈ chains.of k ∧ C ≠ D ∧
      p = coalesce o C D k readfrom := by
  obtain ⟨k, cs, hcs, C, D, hpair, rfl⟩ := (mem_coalesceAll o chains readfrom p).mp hp
  have hnodup : (o.iter cs).Nodup := by
    have := (hC k).nodup_chains
    rw [ChainTable.of, Dict.getD_of_get? ((chains.mem_entries k cs).mp hcs)] at this
    exact (SetOrder.nodup_iter o cs).mpr (List.Nodup.of_map _ this)
  obtain ⟨hCm, hDm, hne⟩ := (mem_pairsOf hnodup).mp (.inl hpair)
  exact ⟨k, C, D, mem_entries_of.mp ⟨cs, hcs, (SetOrder.mem_iter o _ C).mp hCm⟩,
    mem_entries_of.mp ⟨cs, hcs, (SetOrder.mem_iter o _ D).mp hDm⟩, hne, rfl⟩

/-- Constraints lead from writers and their readers to writers of the same key. -/
theorem forall_coalesceAll (hC : Chaining W link chains.of) {readfrom : ReadFrom κ}
    {P : Edge → Prop} (hww : ∀ k a b, W.writes k a → W.writes k b → P ⟨a, b, .ww⟩)
    (hrw : ∀ k a r b, W.writes k a → r ∈ readfrom.getD (k, a) [] → W.writes k b → P ⟨r, b, .rw⟩) :
    ∀ p ∈ coalesceAll o chains readfrom, (∀ e ∈ p.1, P e) ∧ ∀ e ∈ p.2, P e := by
  have hedges : ∀ {k} {C D : Chain}, C.txns ∈ chains.of k → D.txns ∈ chains.of k →
      ∀ e ∈ genChain2chainEdges o C D k readfrom, P e := by
    intro k C D hCm hDm e he
    have hlast := hC.writes_of_mem hCm (List.mem_of_getLast? C.getLast?_txns)
    have hfirst := hC.writes_of_mem hDm (List.mem_of_head? D.head?_txns)
    rcases (mem_genChain2chainEdges o C D k readfrom e).mp he with rfl | ⟨r, hr, rfl⟩
    · exact hww k _ _ hlast hfirst
    · exact hrw k _ r _ hlast hr hfirst
  intro p hp
  obtain ⟨k, C, D, hCm, hDm, _, rfl⟩ := exists_chains o hC hp
  exact ⟨hedges hCm hDm, hedges hDm hCm⟩

/-- No edge of a constraint leads from a transaction to itself, if readers of a
version that write the key follow some version. -/
theorem src_ne_coalesceAll (hC : Chaining W link chains.of) {readfrom : ReadFrom κ}
    (hlink : ∀ k a b, W.writes k a → b ∈ readfrom.getD (k, a) [] → W.writes k b → ∃ x, link k x b) :
    ∀ p ∈ coalesceAll o chains readfrom, ∀ e, e ∈ p.1 ∨ e ∈ p.2 → e.src ≠ e.dst := by
  have hedges : ∀ {k} {C D : Chain}, C.txns ∈ chains.of k → D.txns ∈ chains.of k → C ≠ D →
      ∀ e ∈ genChain2chainEdges o C D k readfrom, e.src ≠ e.dst := by
    intro k C D hCm hDm hne e he
    have hlast := List.mem_of_getLast? C.getLast?_txns
    have hfirst := List.mem_of_head? D.head?_txns
    rcases (mem_genChain2chainEdges o C D k readfrom e).mp he with rfl | ⟨r, hr, rfl⟩
    · intro heq
      have hlast' : C.last ∈ D.txns := (show C.last = D.first from heq) ▸ hfirst
      exact hne (Chain.txns_injective ((hC k).eq_of_mem hCm hDm hlast hlast'))
    · intro heq
      have hr' : D.first ∈ readfrom.getD (k, C.last) [] := (show r = D.first from heq) ▸ hr
      obtain ⟨x, hx⟩ := hlink k _ _ (hC.writes_of_mem hCm hlast) hr' (hC.writes_of_mem hDm hfirst)
      exact (hC k).not_link_head hDm D.head?_txns x hx
  intro p hp e he
  obtain ⟨k, C, D, hCm, hDm, hne, rfl⟩ := exists_chains o hC hp
  rcases he with he | he
  · exact hedges hCm hDm hne e he
  · exact hedges hDm hCm (Ne.symm hne) e he

/-- Constraints never point at T0, which writes nothing. -/
theorem dst_ne_coalesceAll (hC : Chaining W link chains.of) (hW : ∀ k x, W.writes k x → x ≠ 0)
    {readfrom : ReadFrom κ} :
    ∀ p ∈ coalesceAll o chains readfrom, (∀ e ∈ p.1, e.dst ≠ 0) ∧ ∀ e ∈ p.2, e.dst ≠ 0 :=
  forall_coalesceAll o hC (fun k _ b _ hb => hW k b hb) (fun k _ _ b _ _ hb => hW k b hb)

end Shape

section Holds

variable [LinearOrder Event] {o : SetOrder} {chains : ChainTable κ} {readfrom : ReadFrom κ}
  {W : Workload κ Nat} {link : κ → Nat → Nat → Prop}

theorem holds_genChain2chainEdges (hR : ReadersOf readfrom W) {k : κ} {C D : Chain}
    (hw : W.writes k C.last) :
    (∀ e ∈ genChain2chainEdges o C D k readfrom, e.Holds) ↔
      Before W Event.s Event.c k C.txns D.txns := by
  simp only [mem_genChain2chainEdges, Before, Chain.getLast?_txns, Chain.head?_txns,
    Option.some.injEq]
  constructor
  · rintro h a b rfl rfl
    exact ⟨h _ (.inl rfl), fun r hr => h _ (.inr ⟨r, (hR k _ r hw).mpr hr, rfl⟩)⟩
  · rintro h e (rfl | ⟨r, hr, rfl⟩)
    · exact (h _ _ rfl rfl).1
    · exact (h _ _ rfl rfl).2 r ((hR k _ r hw).mp hr)

/-- Coalesced constraints say that two chains of a key do not interleave. -/
theorem choice_coalesceAll (hC : Chaining W link chains.of) (hR : ReadersOf readfrom W) :
    (∀ p ∈ coalesceAll o chains readfrom, (∀ e ∈ p.1, e.Holds) ∨ ∀ e ∈ p.2, e.Holds) ↔
      ∀ k C D, C ∈ chains.of k → D ∈ chains.of k → C ≠ D →
        Before W Event.s Event.c k C D ∨ Before W Event.s Event.c k D C := by
  have hlast : ∀ {k} {C : Chain}, C.txns ∈ chains.of k → W.writes k C.last := fun {k C} h =>
    hC.writes_of_mem h (List.mem_of_getLast? C.getLast?_txns)
  have hnodup : ∀ {k cs}, (k, cs) ∈ chains.entries → (o.iter cs).Nodup := by
    intro k cs hm
    have := (hC k).nodup_chains
    rw [ChainTable.of, Dict.getD_of_get? ((chains.mem_entries k cs).mp hm)] at this
    exact (SetOrder.nodup_iter o cs).mpr (List.Nodup.of_map _ this)
  constructor
  · intro h k C D hCm hDm hne
    obtain ⟨C, _, rfl⟩ := List.mem_map.mp hCm
    obtain ⟨D, _, rfl⟩ := List.mem_map.mp hDm
    obtain ⟨cs, hcs, hm⟩ := mem_entries_of.mpr hCm
    obtain ⟨cs', hcs', hm'⟩ := mem_entries_of.mpr hDm
    obtain rfl : cs = cs' := Option.some.inj
      (((chains.mem_entries k cs).mp hcs).symm.trans ((chains.mem_entries k cs').mp hcs'))
    have hpair := (mem_pairsOf (hnodup hcs)).mpr
      ⟨(SetOrder.mem_iter o _ C).mpr hm, (SetOrder.mem_iter o _ D).mpr hm',
      fun he => hne (he ▸ rfl)⟩
    rw [← holds_genChain2chainEdges (o := o) hR (hlast hCm), ← holds_genChain2chainEdges
      (o := o) hR (hlast hDm)]
    rcases hpair with hp | hp
    · exact h _ ((mem_coalesceAll o chains readfrom _).mpr ⟨k, cs, hcs, C, D, hp, rfl⟩)
    · exact (h _ ((mem_coalesceAll o chains readfrom _).mpr ⟨k, cs, hcs, D, C, hp, rfl⟩)).symm
  · intro h p hp
    obtain ⟨k, C, D, hC', hD', hne, rfl⟩ := exists_chains o hC hp
    rw [coalesce, holds_genChain2chainEdges hR (hlast hC'),
      holds_genChain2chainEdges hR (hlast hD')]
    exact h k _ _ hC' hD' (fun he => hne (Chain.txns_injective he))

/-- Inferred edges say that readers of a version begin before the next commits. -/
theorem holds_inferScript (hC : Chaining W link chains.of) (hR : ReadersOf readfrom W) :
    (∀ e, .ok (.edge e) ∈ inferScript o chains readfrom → e.Holds) ↔
      ∀ k C a b r, C ∈ chains.of k → Linked C a b → W.readsFrom k a r → r ≠ b →
      Event.s r < Event.c b := by
  simp only [mem_inferScript]
  constructor
  · intro h k C a b r hm hl hr hne
    have hw := hC.writes_of_mem hm hl.mem.1
    exact h ⟨r, b, .rw⟩ ⟨k, C, a, b, r, hm, hl, (hR k a r hw).mpr hr, hne, rfl⟩
  · rintro h e ⟨k, C, a, b, r, hm, hl, hr, hne, he⟩
    cases he
    exact h k C a b r hm hl ((hR k a r (hC.writes_of_mem hm hl.mem.1)).mp hr) hne

/-- With its reads known, the chain encoding is a legal chaining. -/
theorem chainLegal_iff (hC : Chaining W link chains.of) (hR : ReadersOf readfrom W) :
    (∀ {k i j}, W.readsFrom k i j → Event.c i < Event.s j) ∧
        (∀ e, .ok (.edge e) ∈ inferScript o chains readfrom → e.Holds) ∧
        (∀ p ∈ coalesceAll o chains readfrom, (∀ e ∈ p.1, e.Holds) ∨ ∀ e ∈ p.2, e.Holds) ↔
      ChainLegal W chains.of Event.s Event.c := by
  rw [choice_coalesceAll hC hR, holds_inferScript hC hR]
  constructor
  · rintro ⟨hr, hi, ho⟩
    exact ⟨hr, fun hm he hr hne => hi _ _ _ _ _ hm ⟨_, _, he⟩ hr hne,
      fun h h' hne => ho _ _ _ h h' hne⟩
  · intro h
    refine ⟨h.reads, ?_, fun k C D hm hm' hne => h.outer hm hm' hne⟩
    rintro k C a b r hm ⟨l₁, l₂, he⟩ hr hne
    exact h.inner hm he hr hne

end Holds

end Viper
