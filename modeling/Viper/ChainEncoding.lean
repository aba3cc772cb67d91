import Viper.Checkers
import Viper.Indices
import Viper.Lib.Chains

/-!
# Chains and coalesced constraints

`gen_constraints` and its helpers, which the chain builder for registers and the
builder for list-append share up to one test in `combine_writes`. Writers of a
key start as chains of one transaction, known successors merge them, and every
two chains left over become one constraint.
-/
namespace Viper

open Py Chains

/-- A nonempty tuple of transactions. -/
structure Chain where
  txns : List Nat
  nonempty : txns ≠ []
  deriving DecidableEq

namespace Chain

def single (txn : Nat) : Chain := ⟨[txn], List.cons_ne_nil txn []⟩

/-- `chain[0]` -/
def first (c : Chain) : Nat := c.txns.head c.nonempty

/-- `chain[-1]` -/
def last (c : Chain) : Nat := c.txns.getLast c.nonempty

def append (c d : Chain) : Chain :=
  ⟨c.txns ++ d.txns, List.append_ne_nil_of_left_ne_nil c.nonempty d.txns⟩

theorem head?_txns (c : Chain) : c.txns.head? = some c.first := List.head?_eq_some_head c.nonempty

theorem getLast?_txns (c : Chain) : c.txns.getLast? = some c.last :=
  List.getLast?_eq_some_getLast c.nonempty

theorem first_eq {c : Chain} {txn : Nat} : c.first = txn ↔ c.txns.head? = some txn := by
  simp [head?_txns]

theorem last_eq {c : Chain} {txn : Nat} : c.last = txn ↔ c.txns.getLast? = some txn := by
  simp [getLast?_txns]

theorem txns_injective : Function.Injective txns := by
  rintro ⟨l, _⟩ ⟨l', _⟩ rfl
  rfl

/-- A chain that is followed by its own first transaction is a cycle. -/
theorem cycle_of_closed {link : Nat → Nat → Prop} {c : Chain} (hc : c.txns.IsChain link)
    (hclosed : link c.last c.first) :
    Relation.TransGen link c.first c.first :=
  Relation.TransGen.tail' (List.relationReflTransGen_of_exists_isChain c.txns hc c.nonempty) hclosed

end Chain

/-- `(key, writer) => readers of that version`; a missing entry is an empty set. -/
abbrev ReadFrom (κ : Type) := Dict (κ × Nat) (List Nat)

/-- `(key, writer) => next writer` -/
abbrev Wwpairs (κ : Type) := Dict (κ × Nat) Nat

abbrev ChainTable (κ : Type) := Dict κ (List Chain)

section Definitions

variable {κ ν : Type} [LinearOrder κ] [DecidableEq ν]

/-- `for read_txn in read_txns: readfrom[(k, writer)].add(read_txn)` -/
def addReaders (o : SetOrder) (k : κ) (writer : Nat) (readTxns : List Nat) (readfrom : ReadFrom κ) :
    ReadFrom κ :=
  (o.iter readTxns).foldl (fun readfrom r =>
    readfrom.set (k, writer) ((readfrom.getD (k, writer) []).insert r)) readfrom

/-- The chains before merging: every writer of a key on its own. -/
def singleChains (o : SetOrder) (extWrites : Index κ ν) : ChainTable κ :=
  extWrites.keys.foldl (fun chains k =>
    (o.iter (kWritesFn extWrites k)).foldl (fun chains txn =>
      chains.set k ((chains.getD k []).insert (.single txn))) chains) Dict.empty

/-- The searches `find_chain_by_last_txn` and `find_chain_by_first_txn`. The dump
of all chains in their assertion message is left out. -/
def findChain [ToString κ] (o : SetOrder) (chains : ChainTable κ) (k : κ) (tx : Nat)
    (sel : Chain → Nat) :
    Except Err Chain :=
  match (o.iter (chains.getD k [])).find? (fun chain => sel chain = tx) with
  | some chain => .ok chain
  | none => .error (.assertion s!"k={k}, tx={tx}")

def removeChain (chainset : List Chain) (chain : Chain) : Except Err (List Chain) :=
  if chain ∈ chainset then .ok (chainset.erase chain) else .error .keyError

/-- One pair of `combine_writes`; `sanity` is the test on the two chains. -/
def combineStep [ToString κ] (o : SetOrder) (sanity : Chain → Chain → Except Err Unit)
    (chains : ChainTable κ) (p : (κ × Nat) × Nat) : Except Err (ChainTable κ) := do
  let k := p.1.1
  let chain1 ← findChain o chains k p.1.2 Chain.last
  let chain2 ← findChain o chains k p.2 Chain.first
  sanity chain1 chain2
  let rest ← removeChain (chains.getD k []) chain1
  let rest ← removeChain rest chain2
  .ok (chains.set k (rest.insert (chain1.append chain2)))

def combineWritesWith [ToString κ] (o : SetOrder) (sanity : Chain → Chain → Except Err Unit)
    (chains : ChainTable κ) (wwpairs : Wwpairs κ) : Except Err (ChainTable κ) :=
  wwpairs.entries.foldlM (combineStep o sanity) chains

/-- Readers of an inner version begin before the next version commits. -/
def inferRwEdges (o : SetOrder) (chains : ChainTable κ) (readfrom : ReadFrom κ)
    (g : ArgumentedPolyGraph κ) :
    Except Err (ArgumentedPolyGraph κ) :=
  chains.entries.foldlM (fun g p =>
    (o.iter p.2).foldlM (fun g chain =>
      (chain.txns.zip chain.txns.tail).foldlM (fun g q =>
        (o.iter (readfrom.getD (p.1, q.1) [])).foldlM (fun g readTxn =>
          if readTxn ≠ q.2 then g.addEdge readTxn q.2 .rw else .ok g) g) g) g) g

def genChain2chainEdges (o : SetOrder) (chain1 chain2 : Chain) (key : κ)
    (readfrom : ReadFrom κ) : List Edge :=
  let edgeSet : List Edge := [⟨chain1.last, chain2.first, .ww⟩]
  match readfrom.get? (key, chain1.last) with
  | none => o.iter edgeSet
  | some readTxns =>
    o.iter ((o.iter readTxns).foldl (fun es r => es.insert ⟨r, chain2.first, .rw⟩) edgeSet)

def coalesce (o : SetOrder) (chain1 chain2 : Chain) (key : κ) (readfrom : ReadFrom κ) :
    Constraint :=
  (genChain2chainEdges o chain1 chain2 key readfrom,
    genChain2chainEdges o chain2 chain1 key readfrom)

/-- One constraint for every two chains of a key. -/
def coalesceAll (o : SetOrder) (chains : ChainTable κ) (readfrom : ReadFrom κ) : List Constraint :=
  chains.entries.foldl (fun constraints p =>
    (pairsOf (o.iter p.2)).foldl (fun constraints q =>
      constraints.insert (coalesce o q.1 q.2 p.1 readfrom)) constraints) []

/-- `gen_constraints`, with the `combine_writes` of a builder. The graph gets
the inferred edges. -/
def genConstraintsWith (o : SetOrder)
    (combineWrites : ChainTable κ → Wwpairs κ → Except Err (ChainTable κ))
    (g : ArgumentedPolyGraph κ) (readfrom : ReadFrom κ) (wwpairs : Wwpairs κ)
    (extWrites : Index κ ν) :
    Except Err (ArgumentedPolyGraph κ × List Constraint) := do
  let chains ← combineWrites (singleChains o extWrites) wwpairs
  let g ← inferRwEdges o chains readfrom g
  .ok (g, coalesceAll o chains readfrom)

end Definitions

section Merging

variable {κ ν : Type} [LinearOrder κ]

/-- The chains of a key, as lists. -/
def ChainTable.of (chains : ChainTable κ) (k : κ) : List (List Nat) :=
  (chains.getD k []).map Chain.txns

theorem mem_addReaders (o : SetOrder) (k k' : κ) (i w j : Nat) (readTxns : List Nat)
    (readfrom : ReadFrom κ) :
    j ∈ (addReaders o k w readTxns readfrom).getD (k', i) [] ↔
      j ∈ readfrom.getD (k', i) [] ∨ (k' = k ∧ i = w ∧ j ∈ readTxns) := by
  refine (Dict.mem_addAll readfrom (k, w) (k', i) id (o.iter readTxns) j).trans ?_
  simp [and_assoc]

/-- One chain for every writer of a key. -/
def Singletons (writers : κ → Finset Nat) (chains : ChainTable κ) : Prop :=
  ∀ k, (chains.getD k []).Nodup ∧ ∀ C, C ∈ chains.getD k [] ↔ ∃ txn ∈ writers k, C = .single txn

theorem Singletons.chained {writers : κ → Finset Nat} {chains : ChainTable κ}
    (h : Singletons writers chains) (k : κ) :
    Chained (· ∈ writers k) (fun _ _ => False) (chains.of k) := by
  obtain ⟨hn, hmem⟩ := h k
  have hperm : (chains.of k).Perm ((writers k).toList.map fun x => [x]) := by
    refine (List.perm_ext_iff_of_nodup ?_ ?_).mpr fun C => ?_
    · exact hn.map Chain.txns_injective
    · exact (writers k).nodup_toList.map (fun a b he => by simpa using he)
    · simp only [ChainTable.of, List.mem_map, hmem, Finset.mem_toList]
      constructor
      · rintro ⟨C, ⟨txn, ht, rfl⟩, rfl⟩
        exact ⟨txn, ht, rfl⟩
      · rintro ⟨txn, ht, rfl⟩
        exact ⟨.single txn, ⟨txn, ht, rfl⟩, rfl⟩
  exact ((chained_singletons (writers k).nodup_toList).perm hperm).congr
    (fun x => (writers k).mem_toList) (fun _ _ => Iff.rfl)

section Start

variable (o : SetOrder) (X : Index κ ν)

/-- The loop over the writers of one key. -/
def addSingles (chains : ChainTable κ) (k : κ) : ChainTable κ :=
  (o.iter (kWritesFn X k)).foldl
    (fun chains txn => chains.set k ((chains.getD k []).insert (.single txn))) chains

theorem mem_addSingles (ks : List κ) (chains : ChainTable κ) (k : κ) (C : Chain) :
    C ∈ (ks.foldl (addSingles o X) chains).getD k [] ↔
      C ∈ chains.getD k [] ∨ (k ∈ ks ∧ ∃ txn ∈ kWritesFn X k, C = .single txn) := by
  induction ks generalizing chains with
  | nil => simp
  | cons k' ks ih =>
    rw [List.foldl_cons, ih, addSingles, Dict.mem_addAll]
    by_cases hk : k = k'
    · subst hk
      simp only [SetOrder.mem_iter, true_and, List.mem_cons, true_or]
      generalize (∃ txn ∈ kWritesFn X k, C = Chain.single txn) = found
      tauto
    · simp [hk]

theorem nodup_addSingles (ks : List κ) {chains : ChainTable κ}
    (h : ∀ k, (chains.getD k []).Nodup) (k : κ) :
    ((ks.foldl (addSingles o X) chains).getD k []).Nodup := by
  induction ks generalizing chains with
  | nil => exact h k
  | cons k' ks ih => exact ih (fun x => Dict.nodup_addAll h k' x _ _)

theorem singletons_singleChains [DecidableEq ν] :
    Singletons (fun k => (kWritesFn X k).toFinset) (singleChains o X) := by
  intro k
  have heq : singleChains o X = X.keys.foldl (addSingles o X) Dict.empty := rfl
  rw [heq]
  have hempty : ∀ k, (Dict.empty : ChainTable κ).getD k [] = [] := fun _ => rfl
  refine ⟨nodup_addSingles o X X.keys (fun k => hempty k ▸ List.nodup_nil) k, fun C => ?_⟩
  rw [mem_addSingles, hempty, or_iff_right List.not_mem_nil]
  constructor
  · rintro ⟨_, txn, ht, rfl⟩
    exact ⟨txn, List.mem_toFinset.mpr ht, rfl⟩
  · rintro ⟨txn, ht, rfl⟩
    have ht := List.mem_toFinset.mp ht
    -- only the keys of the index have writers
    have hk : k ∈ X.keys := by
      rw [kWritesFn] at ht
      cases hk : X.get? k with
      | none => simp [hk] at ht
      | some vs => exact (X.mem_keys k).mpr ⟨vs, hk⟩
    exact ⟨hk, txn, ht, rfl⟩

end Start

/-- The initial chains are the writers of every key, one by one. -/
theorem chained_singleChains [DecidableEq ν] {X : Index κ ν} {W : Nat → κ → ν → Prop}
    (hX : IndexOf X W)
    (o : SetOrder)
    (k : κ) : Chained (fun i => ∃ v, W i k v) (fun _ _ => False) ((singleChains o X).of k) :=
  ((singletons_singleChains o X).chained k).congr
    (fun i => List.mem_toFinset.trans (mem_kWritesFn hX k i)) (fun _ _ => Iff.rfl)

section Combine

variable [ToString κ] {o : SetOrder} {sanity : Chain → Chain → Except Err Unit} {W : κ → Nat → Prop}

theorem findChain_eq {chains : ChainTable κ} {k : κ} {tx : Nat} {sel : Chain → Nat} {C : Chain}
    (hC : C ∈ chains.getD k []) (hs : sel C = tx)
    (hu : ∀ D ∈ chains.getD k [], sel D = tx → D = C) :
    findChain o chains k tx sel = .ok C := by
  rw [findChain]
  cases hf : (o.iter (chains.getD k [])).find? (fun chain => sel chain = tx) with
  | none =>
    have := List.find?_eq_none.mp hf C ((SetOrder.mem_iter o _ C).mpr hC)
    simp [hs] at this
  | some D =>
    have hD := hu D ((SetOrder.mem_iter o _ D).mp (List.mem_of_find?_eq_some hf))
      (by simpa using List.find?_some hf)
    rw [hD]

omit [ToString κ] in
/-- Two chains of a key replaced by their concatenation. -/
theorem chained_join {link : κ → Nat → Nat → Prop} {chains : ChainTable κ}
    (h : ∀ k, Chained (W k) (link k) (chains.of k)) {k : κ} {C D : Chain}
    (hCm : C ∈ chains.getD k [])
    (hDm : D ∈ (chains.getD k []).erase C) {a b : Nat} (hlast : C.txns.getLast? = some a)
    (hhead : D.txns.head? = some b) (k' : κ) :
    Chained (W k') (fun x y => link k' x y ∨ (k' = k ∧ x = a ∧ y = b))
      (ChainTable.of
        (chains.set k ((((chains.getD k []).erase C).erase D).insert (C.append D))) k') := by
  by_cases hk' : k' = k
  · subst hk'
    have hp : (chains.of k').Perm
      (C.txns :: D.txns :: (((chains.getD k' []).erase C).erase D).map Chain.txns) :=
      (((List.perm_cons_erase hCm).trans ((List.perm_cons_erase hDm).cons C)).map Chain.txns)
    have hm := (h k').merge hp hlast hhead
    have hnew : C.append D ∉ ((chains.getD k' []).erase C).erase D := by
      intro hin
      have := hm.nodup_chains
      rw [List.nodup_cons] at this
      exact this.1 (List.mem_map.mpr ⟨_, hin, rfl⟩)
    have hof : ChainTable.of
        (chains.set k' (List.insert (C.append D) (((chains.getD k' []).erase C).erase D))) k' =
        (C.txns ++ D.txns) :: (((chains.getD k' []).erase C).erase D).map Chain.txns := by
      rw [ChainTable.of, Dict.getD_of_get? (Dict.get?_set_same _ _ _), List.insert_of_not_mem hnew]
      rfl
    rw [hof]
    exact hm.congr (fun _ => Iff.rfl) (fun x y => by simp)
  · have hof : ∀ l, ChainTable.of (chains.set k l) k' = chains.of k' := by
      intro l
      simp only [ChainTable.of, Dict.getD, Dict.get?_set_other _ _ _ _ hk']
    rw [hof]
    exact (h k').congr (fun _ => Iff.rfl) (fun x y => by simp [hk'])

/-- A writer without a known successor ends a chain, one without a known
predecessor starts one, and the searches find both. -/
theorem findChains_total {link : κ → Nat → Nat → Prop} {chains : ChainTable κ}
    (h : ∀ k, Chained (W k) (link k) (chains.of k)) {k : κ} {a b : Nat} (ha : W k a) (hb : W k b)
    (hla : ∀ y, ¬ link k a y) (hlb : ∀ x, ¬ link k x b) :
    ∃ C D, C ∈ chains.getD k [] ∧ C.txns.getLast? = some a ∧
      findChain o chains k a Chain.last = .ok C ∧
      D ∈ chains.getD k [] ∧ D.txns.head? = some b ∧
      findChain o chains k b Chain.first = .ok D := by
  have hk := h k
  obtain ⟨_, hC, hlast⟩ := hk.exists_last ha hla
  obtain ⟨_, hD, hhead⟩ := hk.exists_head hb hlb
  obtain ⟨C, hCm, rfl⟩ := List.mem_map.mp hC
  obtain ⟨D, hDm, rfl⟩ := List.mem_map.mp hD
  have hmem : ∀ {E}, E ∈ chains.getD k [] → E.txns ∈ chains.of k :=
    fun hE => List.mem_map.mpr ⟨_, hE, rfl⟩
  have hfC : findChain o chains k a Chain.last = .ok C :=
    findChain_eq hCm (Chain.last_eq.mpr hlast) (fun E hE he =>
    Chain.txns_injective (hk.eq_of_mem (hmem hE) hC (List.mem_of_getLast? (Chain.last_eq.mp he))
      (List.mem_of_getLast? hlast)))
  have hfD : findChain o chains k b Chain.first = .ok D :=
    findChain_eq hDm (Chain.first_eq.mpr hhead) (fun E hE he =>
    Chain.txns_injective (hk.eq_of_mem (hmem hE) hD (List.mem_of_head? (Chain.first_eq.mp he))
      (List.mem_of_head? hhead)))
  exact ⟨C, D, hCm, hlast, hfC, hDm, hhead, hfD⟩

/-- One pair merges two chains, or is the link that would close a chain. -/
theorem combineStep_spec (hs : ∀ C D, C ≠ D → sanity C D = .ok ()) {link : κ → Nat → Nat → Prop}
    {chains : ChainTable κ} (h : ∀ k, Chained (W k) (link k) (chains.of k)) {k : κ}
    {a b : Nat} (ha : W k a) (hb : W k b) (hla : ∀ y, ¬ link k a y) (hlb : ∀ x, ¬ link k x b) :
    (∃ chains', combineStep o sanity chains ((k, a), b) = .ok chains' ∧
      ∀ k', Chained (W k') (fun x y => link k' x y ∨ (k' = k ∧ x = a ∧ y = b)) (chains'.of k')) ∨
    ∃ C, C.txns ∈ chains.of k ∧ C.last = a ∧ C.first = b ∧
      combineStep o sanity chains ((k, a), b) = (sanity C C >>= fun _ => .error .keyError) := by
  have hk := h k
  obtain ⟨C, D, hCm, hlast, hfC, hDm, hhead, hfD⟩ := findChains_total (o := o) h ha hb hla hlb
  have hn : (chains.getD k []).Nodup := List.Nodup.of_map _ hk.nodup_chains
  by_cases hCD : C = D
  · subst hCD
    refine .inr
      ⟨C, List.mem_map.mpr ⟨C, hCm, rfl⟩, Chain.last_eq.mpr hlast, Chain.first_eq.mpr hhead, ?_⟩
    have hgone : C ∉ (chains.getD k []).erase C :=
      fun hm => absurd rfl ((List.Nodup.mem_erase_iff hn).mp hm).1
    simp only [combineStep, hfC, hfD, ok_bind, removeChain, if_pos hCm, if_neg hgone, error_bind]
  · have hDC : D ∈ (chains.getD k []).erase C := (List.mem_erase_of_ne (Ne.symm hCD)).mpr hDm
    refine .inl ⟨_, ?_, chained_join h hCm hDC hlast hhead⟩
    simp only [combineStep, hfC, hfD, ok_bind, hs C D hCD, removeChain, if_pos hCm, if_pos hDC]

/-- Known successors, each with one predecessor, merge completely unless they
close a chain. -/
theorem combineRun_spec (hs : ∀ C D, C ≠ D → sanity C D = .ok ()) {l d : List ((κ × Nat) × Nat)}
    {chains : ChainTable κ} (hkeys : ((d ++ l).map Prod.fst).Nodup)
    (hinj : ∀ k a a' b, ((k, a), b) ∈ d ++ l → ((k, a'), b) ∈ d ++ l → a = a')
    (hW : ∀ k a b, ((k, a), b) ∈ l → W k a ∧ W k b)
    (h : ∀ k, Chained (W k) (fun a b => ((k, a), b) ∈ d) (chains.of k)) :
    (∃ chains', l.foldlM (combineStep o sanity) chains = .ok chains' ∧
      ∀ k, Chained (W k) (fun a b => ((k, a), b) ∈ d ++ l) (chains'.of k)) ∨
    ∃ k C, C.txns.IsChain (fun a b => ((k, a), b) ∈ d ++ l) ∧ ((k, C.last), C.first) ∈ l ∧
      l.foldlM (combineStep o sanity) chains = (sanity C C >>= fun _ => .error .keyError) := by
  induction l generalizing d chains with
  | nil => exact .inl ⟨chains, rfl, by simpa using h⟩
  | cons p l ih =>
    obtain ⟨⟨k, a⟩, b⟩ := p
    have hp : ((k, a), b) ∈ d ++ ((k, a), b) :: l := by simp
    obtain ⟨ha, hb⟩ := hW k a b List.mem_cons_self
    have hla : ∀ y, ((k, a), y) ∉ d := by
      intro y hy
      rw [List.map_append, List.map_cons] at hkeys
      exact (List.nodup_append.mp hkeys).2.2 (k, a) (List.mem_map.mpr ⟨_, hy, rfl⟩)
        (k, a) List.mem_cons_self rfl
    have hlb : ∀ x, ((k, x), b) ∉ d := by
      intro x hx
      obtain rfl := hinj k x a b (List.mem_append_left _ hx) hp
      exact hla b hx
    rcases combineStep_spec (o := o) hs h ha hb hla hlb
      with ⟨chains₁, h₁, hc⟩ | ⟨C, hC, hlast, hfirst, he⟩
    · have hassoc : d ++ ((k, a), b) :: l = (d ++ [((k, a), b)]) ++ l := by simp
      rw [hassoc] at hkeys hinj ⊢
      rw [List.foldlM_cons, h₁, ok_bind]
      rcases ih hkeys hinj (fun k a b hm => hW k a b (List.mem_cons_of_mem _ hm))
        (fun k' => (hc k').congr (fun _ => Iff.rfl) (fun x y => by simp [and_assoc])) with
        ⟨chains₂, h₂, hc₂⟩ | ⟨k', C, hC, hm, he⟩
      · exact .inl ⟨chains₂, h₂, hc₂⟩
      · exact .inr ⟨k', C, hC, List.mem_cons_of_mem _ hm, he⟩
    · refine .inr ⟨k, C, ((h k).isChain hC).imp (fun _ _ hm => List.mem_append_left _ hm), ?_, ?_⟩
      · rw [hlast, hfirst]
        exact List.mem_cons_self
      · rw [List.foldlM_cons, he]
        cases sanity C C <;> rfl

/-- A completed step found two chains and joined them. -/
theorem combineStep_of_ok {link : κ → Nat → Nat → Prop} {chains chains' : ChainTable κ}
    (h : ∀ k, Chained (W k) (link k) (chains.of k)) {k : κ} {a b : Nat}
    (hok : combineStep o sanity chains ((k, a), b) = .ok chains') (k' : κ) :
    Chained (W k') (fun x y => link k' x y ∨ (k' = k ∧ x = a ∧ y = b)) (chains'.of k') := by
  have hfound : ∀ {tx sel C}, findChain o chains k tx sel = .ok C →
      C ∈ chains.getD k [] ∧ sel C = tx := by
    intro tx sel C hf
    rw [findChain] at hf
    cases hfind : (o.iter (chains.getD k [])).find? (fun chain => sel chain = tx) with
    | none => simp [hfind] at hf
    | some D =>
      rw [hfind] at hf
      cases hf
      exact ⟨(SetOrder.mem_iter o _ C).mp
        (List.mem_of_find?_eq_some hfind), by simpa using List.find?_some hfind⟩
  simp only [combineStep, bind_eq_ok] at hok
  obtain ⟨C, hC, D, hD, _, _, rest, hr, rest', hr', he⟩ := hok
  cases he
  obtain ⟨hCm, hlast⟩ := hfound hC
  obtain ⟨hDm, hfirst⟩ := hfound hD
  rw [removeChain, if_pos hCm] at hr
  cases hr
  have hDC : D ∈ (chains.getD k []).erase C := by
    by_contra hn
    rw [removeChain, if_neg hn] at hr'
    cases hr'
  rw [removeChain, if_pos hDC] at hr'
  cases hr'
  exact chained_join h hCm hDC (Chain.last_eq.mp hlast) (Chain.first_eq.mp hfirst) k'

theorem combineRun_of_ok {l d : List ((κ × Nat) × Nat)} {chains chains' : ChainTable κ}
    (h : ∀ k, Chained (W k) (fun a b => ((k, a), b) ∈ d) (chains.of k))
    (hok : l.foldlM (combineStep o sanity) chains = .ok chains') (k : κ) :
    Chained (W k) (fun a b => ((k, a), b) ∈ d ++ l) (chains'.of k) := by
  induction l generalizing d chains with
  | nil =>
    cases hok
    simpa using h k
  | cons p l ih =>
    obtain ⟨⟨k₀, a⟩, b⟩ := p
    rw [List.foldlM_cons, bind_eq_ok] at hok
    obtain ⟨chains₁, h₁, h₂⟩ := hok
    have hassoc : d ++ ((k₀, a), b) :: l = (d ++ [((k₀, a), b)]) ++ l := by simp
    rw [hassoc]
    exact ih
      (fun k' =>
        (combineStep_of_ok h h₁ k').congr (fun _ => Iff.rfl) (fun x y => by simp [and_assoc])) h₂

end Combine

end Merging

section Output

variable {κ ν : Type} [LinearOrder κ]

def inferScript (o : SetOrder) (chains : ChainTable κ) (readfrom : ReadFrom κ) : Script :=
  chains.entries.flatMap fun p => (o.iter p.2).flatMap
    fun chain => (chain.txns.zip chain.txns.tail).flatMap fun q =>
    (o.iter (readfrom.getD (p.1, q.1) [])).flatMap fun r =>
      if r ≠ q.2 then [.ok (.edge ⟨r, q.2, .rw⟩)] else []

theorem inferRwEdges_eq (o : SetOrder) (chains : ChainTable κ) (readfrom : ReadFrom κ)
    (g : ArgumentedPolyGraph κ) :
    inferRwEdges o chains readfrom g = play g (inferScript o chains readfrom) := by
  apply foldlM_eq_play
  intro p _ g
  apply foldlM_eq_play
  intro chain _ g
  apply foldlM_eq_play
  intro q _ g
  apply foldlM_eq_play
  intro r _ g
  split
  · rw [play_edge]
  · rfl

theorem mem_entries_of {chains : ChainTable κ} {k : κ} {C : Chain} :
    (∃ cs, (k, cs) ∈ chains.entries ∧ C ∈ cs) ↔ C.txns ∈ chains.of k := by
  simp only [ChainTable.of, List.mem_map_of_injective Chain.txns_injective,
    Dict.mem_entries, Dict.getD]
  cases Dict.get? chains k <;> simp

theorem mem_inferScript (o : SetOrder) (chains : ChainTable κ) (readfrom : ReadFrom κ)
    (x : Except Err Cmd) :
    x ∈ inferScript o chains readfrom ↔
      ∃ k C a b r, C ∈ chains.of k ∧ Linked C a b ∧ r ∈ readfrom.getD (k, a) [] ∧
      r ≠ b ∧ x = .ok (.edge ⟨r, b, .rw⟩) := by
  simp only [inferScript, List.mem_flatMap, SetOrder.mem_iter, Prod.exists, mem_zip_tail]
  constructor
  · rintro ⟨k, cs, hcs, C, hC, a, b, hl, r, hr, hx⟩
    split at hx
    · rename_i hne
      exact ⟨k, C.txns, a, b, r, mem_entries_of.mp ⟨cs, hcs, hC⟩, hl, hr, hne,
        List.mem_singleton.mp hx⟩
    · cases hx
  · rintro ⟨k, C, a, b, r, hC, hl, hr, hne, rfl⟩
    obtain ⟨C, hm, rfl⟩ := List.mem_map.mp hC
    obtain ⟨cs, hcs, hm⟩ := mem_entries_of.mpr hC
    exact ⟨k, cs, hcs, C, hm, a, b, hl, r, hr, by simp [hne]⟩

theorem mem_genChain2chainEdges (o : SetOrder) (C D : Chain) (k : κ)
    (readfrom : ReadFrom κ) (e : Edge) :
    e ∈ genChain2chainEdges o C D k readfrom ↔ e = ⟨C.last, D.first, .ww⟩ ∨
      ∃ r ∈ readfrom.getD (k, C.last) [], e = ⟨r, D.first, .rw⟩ := by
  simp only [genChain2chainEdges, Dict.getD]
  cases Dict.get? readfrom (k, C.last) with
  | none => simp
  | some rs => simp [mem_insertAll]

theorem genChain2chainEdges_ne_nil (o : SetOrder) (C D : Chain) (k : κ) (readfrom : ReadFrom κ) :
    genChain2chainEdges o C D k readfrom ≠ [] :=
  List.ne_nil_of_mem ((mem_genChain2chainEdges o C D k readfrom _).mpr (.inl rfl))

theorem mem_coalesceAll (o : SetOrder) (chains : ChainTable κ) (readfrom : ReadFrom κ)
    (con : Constraint) :
    con ∈ coalesceAll o chains readfrom ↔ ∃ k cs, (k, cs) ∈ chains.entries ∧
      ∃ C D, (C, D) ∈ pairsOf (o.iter cs) ∧ con = coalesce o C D k readfrom := by
  have hfold : ∀ (l : List (κ × List Chain)) (s : List Constraint),
      con ∈ l.foldl (fun constraints p => (pairsOf (o.iter p.2)).foldl (fun constraints q =>
        constraints.insert (coalesce o q.1 q.2 p.1 readfrom)) constraints) s ↔
      con ∈ s ∨ ∃ p ∈ l, ∃ q ∈ pairsOf (o.iter p.2), con = coalesce o q.1 q.2 p.1 readfrom := by
    intro l
    induction l with
    | nil => simp
    | cons p l ih =>
      intro s
      rw [List.foldl_cons, ih, mem_insertAll, or_assoc, List.exists_mem_cons_iff]
  rw [coalesceAll, hfold]
  simp

theorem nodup_coalesceAll (o : SetOrder) (chains : ChainTable κ) (readfrom : ReadFrom κ) :
    (coalesceAll o chains readfrom).Nodup := by
  rw [coalesceAll]
  generalize hs : ([] : List Constraint) = s
  have h : s.Nodup := hs ▸ List.nodup_nil
  clear hs
  induction chains.entries generalizing s with
  | nil => exact h
  | cons p l ih => exact ih _ (nodup_insertAll _ _ h)

/-- `gen_constraints` either plays the inferred edges of complete chains, or
meets a closed chain. -/
theorem genConstraints_cases [ToString κ] [DecidableEq ν] {o : SetOrder}
    (sanity : Chain → Chain → Except Err Unit)
    (hs : ∀ C D, C ≠ D → sanity C D = .ok ()) {X : Index κ ν} {W : Nat → κ → ν → Prop}
    (hX : IndexOf X W)
    {ww : Wwpairs κ}
    (hinj : ∀ k a a' b, ww.get? (k, a) = some b → ww.get? (k, a') = some b → a = a')
    (hW : ∀ k a b, ww.get? (k, a) = some b → (∃ v, W a k v) ∧ ∃ v, W b k v)
    (g : ArgumentedPolyGraph κ) (rf : ReadFrom κ) :
    (∃ chains : ChainTable κ,
      (∀ k, Chained (fun i => ∃ v, W i k v) (fun a b => ww.get? (k, a) = some b) (chains.of k)) ∧
      genConstraintsWith o (combineWritesWith o sanity) g rf ww X =
        (play g (inferScript o chains rf)).map (fun g => (g, coalesceAll o chains rf))) ∨
    ∃ k C, C.txns.IsChain (fun a b => ww.get? (k, a) = some b) ∧
    ww.get? (k, C.last) = some C.first ∧
      genConstraintsWith o (combineWritesWith o sanity) g rf ww X =
      (sanity C C >>= fun _ => .error .keyError) := by
  have hmem : ∀ {k a b}, ((k, a), b) ∈ ww.entries ↔ ww.get? (k, a) = some b :=
    fun {k a b} => ww.mem_entries (k, a) b
  rcases combineRun_spec (o := o) (d := []) (l := ww.entries) hs (by simpa using ww.nodup)
    (fun k a a' b h h' => hinj k a a' b (hmem.mp h) (hmem.mp h'))
      (fun k a b h => hW k a b (hmem.mp h))
    (fun k => (chained_singleChains hX o k).congr (fun _ => Iff.rfl) (fun _ _ => by simp)) with
    ⟨chains, hrun, hc⟩ | ⟨k, C, hC, hm, hrun⟩
  · refine .inl ⟨chains, fun k => (hc k).congr (fun _ => Iff.rfl) (fun _ _ => hmem), ?_⟩
    rw [genConstraintsWith, combineWritesWith, hrun, ok_bind, inferRwEdges_eq]
    cases play g (inferScript o chains rf) <;> rfl
  · refine .inr ⟨k, C, hC.imp (fun _ _ h => hmem.mp h), hmem.mp hm, ?_⟩
    rw [genConstraintsWith, combineWritesWith, hrun]
    cases sanity C C <;> rfl

/-- A completed `gen_constraints` has merged all known successors. -/
theorem genConstraints_of_ok [ToString κ] [DecidableEq ν] {o : SetOrder}
    {sanity : Chain → Chain → Except Err Unit}
    {X : Index κ ν} {W : Nat → κ → ν → Prop} (hX : IndexOf X W) {ww : Wwpairs κ}
    {g g' : ArgumentedPolyGraph κ} {rf : ReadFrom κ} {con : List Constraint}
    (h : genConstraintsWith o (combineWritesWith o sanity) g rf ww X = .ok (g', con)) :
    ∃ chains : ChainTable κ,
      (∀ k, Chained (fun i => ∃ v, W i k v) (fun a b => ww.get? (k, a) = some b) (chains.of k)) ∧
      play g (inferScript o chains rf) = .ok g' ∧ con = coalesceAll o chains rf := by
  rw [genConstraintsWith, bind_eq_ok] at h
  obtain ⟨chains, hrun, h⟩ := h
  rw [inferRwEdges_eq, bind_eq_ok] at h
  obtain ⟨g₁, hg, he⟩ := h
  cases he
  refine ⟨chains, fun k => ?_, hg, rfl⟩
  refine (combineRun_of_ok (d := [])
    (fun k => (chained_singleChains hX o k).congr (fun _ => Iff.rfl)
    (fun _ _ => by simp)) hrun k).congr (fun _ => Iff.rfl) (fun a b => ?_)
  exact ww.mem_entries (k, a) b

end Output

end Viper
