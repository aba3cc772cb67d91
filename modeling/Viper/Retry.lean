import Viper.ChainHeuristic
import Viper.ChainAgreement
import Viper.Replay
import Viper.AppendEncoding
import Viper.Algos

/-!
# Retrying with weaker heuristics (`main_algo_6_8_12`)

Algorithms 6, 8 and 12 check a pruned input first and prune less and less as
long as the answer is no. The last attempt prunes nothing, so the loop ends with
the verdict on the input itself.
-/
namespace Viper

open Py

section Definitions

variable {κ : Type}

/-- The variables of the loop, and whether it was left by `break`. -/
structure Attempt where
  result : Bool
  k : ℚ
  ithK : Nat
  stopped : Bool

/-- The number of begin and commit events. -/
def nNodesBc (g : ArgumentedPolyGraph κ) : ℚ := g.nNodes * 2

/-- `n_nodes_bc * 0.1`, which is exact here. -/
def tenth (g : ArgumentedPolyGraph κ) : ℚ := nNodesBc g / 10

/-- The body of the loop. -/
def attempt (o : SetOrder) (check : ArgumentedPolyGraph κ → List Constraint → Bool)
    (g : ArgumentedPolyGraph κ)
    (conn : List Constraint) (nid2rank : Dict Nat Nat) (st : Attempt) : Except Err Attempt := do
  let (ret, iterG, iterConn) ← kBoundedConstraints o st.k conn g conn nid2rank
  let result := if ret then check iterG iterConn else false
  if st.k = nNodesBc g - 1 then .ok ⟨result, st.k, st.ithK + 1, true⟩
  else
    let k := if st.k + tenth g < nNodesBc g then st.k + tenth g else nNodesBc g - 1
    .ok ⟨result, k, st.ithK + 1, false⟩

/-- The condition of the loop. -/
def Attempt.again (g : ArgumentedPolyGraph κ) (st : Attempt) : Bool :=
  !st.stopped && (!st.result && decide (st.k < nNodesBc g))

def mainAlgo6812 (fuel : Nat) (o : SetOrder)
    (graphConstructor : Except Err (ArgumentedPolyGraph κ × List Constraint))
    (check : ArgumentedPolyGraph κ → List Constraint → Bool) : Option (Except Err Bool) :=
  let result : ExceptT Err Option Bool := do
    let (g, conn) ← fueled graphConstructor
    let (nid2rank, _) ← g.myTopoSort fuel o
    fueled (require (nid2rank.entries.length = g.nNodes * 2) "")
    let st ← whileLoop (Attempt.again g) (attempt o check g conn nid2rank) fuel
      ⟨false, tenth g, 1, false⟩
    fueled (.ok st.result)
  result.run.map catchReject

end Definitions

/-- More fuel does not change an answer. -/
theorem mainAlgo6812_mono {κ : Type} {fuel fuel' : Nat} (h : fuel ≤ fuel') {o : SetOrder}
    {graphConstructor : Except Err (ArgumentedPolyGraph κ × List Constraint)}
    {check : ArgumentedPolyGraph κ → List Constraint → Bool} {r : Except Err Bool}
    (hr : mainAlgo6812 fuel o graphConstructor check = some r) :
    mainAlgo6812 fuel' o graphConstructor check = some r := by
  obtain ⟨answer, hrun, rfl⟩ := Option.map_eq_some_iff.mp hr
  refine Option.map_eq_some_iff.mpr ⟨answer, ?_, rfl⟩
  clear hr
  revert answer
  refine (Extends.refl _).bind (fun p => ?_)
  refine (ArgumentedPolyGraph.extends_myTopoSort h o p.1).bind (fun q => ?_)
  refine (Extends.refl _).bind (fun _ => ?_)
  exact (extends_whileLoop _ _ h _).bind (fun st => .refl _)

section Loop

variable {κ : Type} {o : SetOrder} {g : ArgumentedPolyGraph κ} {con : List Constraint}
  {nid2rank : Dict Nat Nat} (monosat : GraphSat.Oracle)

/-- The checker of algorithms 6 and 8. -/
abbrev verdictOf (o : SetOrder) (monosat : GraphSat.Oracle) (g : ArgumentedPolyGraph κ)
    (con : List Constraint) : Bool :=
  monosat.solve (MonoBCPolyGraphCheckerOptimized.check o g con)

/-- An attempt with the last `k` gives the verdict. Any other says yes only if the
verdict is yes, and goes on to the next `k`. -/
structure Retries (g : ArgumentedPolyGraph κ) (body : Attempt → Except Err Attempt)
    (verdict : Bool) : Prop where
  last : ∀ st, st.k = nNodesBc g - 1 → body st = .ok ⟨verdict, st.k, st.ithK + 1, true⟩
  next : ∀ st, st.k ≠ nNodesBc g - 1 → ∃ result, (result = true → verdict = true) ∧
    body st = .ok ⟨result, if st.k + tenth g < nNodesBc g then st.k + tenth g
      else nNodesBc g - 1, st.ithK + 1, false⟩

/-- What holds between two attempts: a yes is right, and the `break` comes with
the verdict on the input itself. -/
structure Attempted (g : ArgumentedPolyGraph κ) (verdict : Bool) (st : Attempt) : Prop where
  sound : st.result = true → verdict = true
  stopped : st.stopped = true → st.result = verdict
  tenths : st.k = nNodesBc g - 1 ∨ (st.k = st.ithK * tenth g ∧ 1 ≤ st.ithK ∧ st.ithK ≤ 9)

/-- An upper bound for the attempts to come. -/
def attemptsLeft (g : ArgumentedPolyGraph κ) (st : Attempt) : Nat :=
  if st.stopped then 0 else if st.k = nNodesBc g - 1 then 1 else 11 - st.ithK

theorem attempted_start (g : ArgumentedPolyGraph κ) (verdict : Bool) :
    Attempted g verdict ⟨false, tenth g, 1, false⟩ where
  sound h := by cases h
  stopped h := by cases h
  tenths := .inr ⟨by simp, by simp, by simp⟩

theorem nNodesBc_eq (g : ArgumentedPolyGraph κ) : nNodesBc g = 10 * tenth g := by
  rw [tenth]
  linarith

section Attempts

variable {verdict : Bool} {body : Attempt → Except Err Attempt} (hpos : 0 < g.nNodes)
include hpos

theorem tenth_pos : 0 < tenth g := by
  have hcast : (0 : ℚ) < g.nNodes := Nat.cast_pos.mpr hpos
  rw [tenth, nNodesBc]
  linarith

theorem Attempted.k_lt {st : Attempt} (h : Attempted g verdict st) : st.k < nNodesBc g := by
  rcases h.tenths with hk | ⟨hk, _, hi⟩
  · rw [hk]
    linarith
  · have hi' : (st.ithK : ℚ) ≤ 9 := by exact_mod_cast hi
    have hle := mul_le_mul_of_nonneg_right hi' (tenth_pos hpos).le
    have hten := tenth_pos hpos
    rw [nNodesBc_eq]
    linarith

/-- One attempt. -/
theorem Attempted.step (hb : Retries g body verdict) {st : Attempt} (h : Attempted g verdict st)
    (hs : st.stopped = false) :
    ∃ st', body st = .ok st' ∧ Attempted g verdict st' ∧
      attemptsLeft g st' < attemptsLeft g st := by
  by_cases hlast : st.k = nNodesBc g - 1
  · refine ⟨_, hb.last st hlast, ⟨id, fun _ => rfl, .inl hlast⟩, ?_⟩
    simp [attemptsLeft, hs, hlast]
  · obtain ⟨hk, hi, hi'⟩ := h.tenths.resolve_left hlast
    obtain ⟨result, hsound, hrun⟩ := hb.next st hlast
    have hleft : attemptsLeft g st = 11 - st.ithK := by simp [attemptsLeft, hs, hlast]
    by_cases hnext : st.k + tenth g < nNodesBc g
    · have hi'' : st.ithK + 1 ≤ 9 := by
        by_contra hn
        have hnine : (9 : ℚ) ≤ st.ithK := by exact_mod_cast (by omega : 9 ≤ st.ithK)
        have hle := mul_le_mul_of_nonneg_right hnine (tenth_pos hpos).le
        rw [nNodesBc_eq] at hnext
        linarith
      rw [if_pos hnext] at hrun
      refine ⟨_, hrun, ⟨hsound, nofun, .inr ⟨?_, Nat.le_add_left 1 _, hi''⟩⟩, ?_⟩
      · rw [hk, Nat.cast_add, Nat.cast_one, add_one_mul]
      · rw [hleft, attemptsLeft]
        simp only [Bool.false_eq_true, if_false]
        split <;> omega
    · rw [if_neg hnext] at hrun
      refine ⟨_, hrun, ⟨hsound, nofun, .inl rfl⟩, ?_⟩
      rw [hleft, attemptsLeft]
      simp only [Bool.false_eq_true, if_false, if_true]
      omega

/-- The loop ends with the verdict on the input itself. -/
theorem Retries.loop (hb : Retries g body verdict) (fuel : Nat) (hf : 10 < fuel) :
    ∃ st, whileLoop (Attempt.again g) body fuel ⟨false, tenth g, 1, false⟩ = fueled (.ok st) ∧
      st.result = verdict := by
  have hstart : attemptsLeft g ⟨false, tenth g, 1, false⟩ ≤ 10 := by
    rw [attemptsLeft]
    simp only [Bool.false_eq_true, if_false]
    split <;> omega
  obtain ⟨st, hrun, h, hend⟩ :=
    whileLoop_total (Attempt.again g) body (Attempted g verdict) (attemptsLeft g)
    (fun st h hc => h.step hpos hb (by
      rw [Attempt.again, Bool.and_eq_true] at hc
      simpa using hc.1)) (attempted_start g verdict) (Nat.lt_of_le_of_lt hstart hf)
  refine ⟨st, hrun, ?_⟩
  have hk := h.k_lt hpos
  cases hs : st.stopped with
  | true => exact h.stopped hs
  | false =>
    have hresult : st.result = true := by simpa [Attempt.again, hs, hk] using hend
    rw [hresult, h.sound hresult]

end Attempts

variable (hp : Prunable g con) (hr : Ranked g.nNodes nid2rank) (ha : Precedence.Acyclic g.KnownBC)
include hp hr ha

/-- The last attempt decides the input itself, any other finds a solution only if there is one. -/
theorem Prunable.retries :
    Retries g (attempt o (verdictOf o monosat) g con nid2rank) (verdictOf o monosat g con) where
  last st hk := by
    have hkeep : kBoundedConstraints o st.k con g con nid2rank = .ok (true, g, con) := by
      rw [hk, nNodesBc, mul_comm]
      exact kBoundedConstraints_last hp hr o
    simp only [attempt, hkeep, ok_bind, if_true, if_pos hk]
  next st hk := by
    obtain ⟨ret, g', con', hrun, hpruned⟩ := kBoundedConstraints_total (k := st.k) hp hr o ha
    refine ⟨if ret then verdictOf o monosat g' con'
      else false, ?_, by simp only [attempt, hrun, ok_bind, if_neg hk]⟩
    cases ret with
    | false => exact nofun
    | true => exact fun hv =>
      (monosat.solve_iff _).mpr ((hpruned rfl).satisfiable hp ((monosat.solve_iff _).mp hv))

omit hr ha in
/-- With enough fuel the retry loop gives the verdict on the unpruned input. -/
theorem Prunable.mainAlgo6812_eq {fuel : Nat} (hf : 2 * g.nNodes + 10 < fuel) :
    mainAlgo6812 fuel o (.ok (g, con)) (verdictOf o monosat) =
      some (.ok (verdictOf o monosat g con)) := by
  rcases ArgumentedPolyGraph.myTopoSort_cases o hp.bounded.inRange fuel (by omega) with
    ⟨ha, nid2rank, arr, hsort, hr⟩ | ⟨hc, hsort⟩
  · obtain ⟨st, hloop, hresult⟩ := (hp.retries monosat hr ha (o := o)).loop hp.pos fuel (by omega)
    have hsize : nid2rank.entries.length = g.nNodes * 2 := by rw [hr.size, Nat.mul_comm]
    simp only [mainAlgo6812, fueled_ok_bind, hsort, require, hsize, decide_true, if_true,
      hloop, hresult]
    rfl
  · have hno : verdictOf o monosat g con = false := by
      rw [← Bool.not_eq_true, monosat.solve_iff]
      exact hp.unsatisfiable_of_cycle hc
    simp only [mainAlgo6812, fueled_ok_bind, hsort, fueled_error_bind, hno]
    rfl

end Loop

section Bounds

variable {κ : Type} {g : ArgumentedPolyGraph κ}

/-- A graph is bounded if the events it orders and its sessions are. -/
theorem bounded_of {μ : Type} {histories : List (List (Entry μ))} (hinv : g.Inv)
    (hsess : g.histories = histories.map (·.map Entry.id))
    (hids : ∀ txns ∈ histories, ∀ e ∈ txns, e.id < g.nNodes)
    (hdst : ∀ a b, g.Before a b → ∃ e : Edge, e.before = (a, b) ∧ e.dst < g.nNodes) :
    g.Bounded where
  inv := hinv
  dst_lt {src dst type} hm := by
    obtain ⟨e, he, hlt⟩ :=
      hdst (Edge.mk src dst type).before.1 (Edge.mk src dst type).before.2 ⟨src, dst, type, hm, rfl⟩
    -- the two edges may differ in their type
    rw [← e.idx_dst, he, Edge.idx_dst] at hlt
    exact hlt
  session_lt txns ht i hi := by
    rw [hsess] at ht
    obtain ⟨entries, he, rfl⟩ := List.mem_map.mp ht
    obtain ⟨e, hm, rfl⟩ := List.mem_map.mp hi
    exact hids entries he e hm

theorem Consecutive.mem_sessions {μ : Type} {histories : List (List (Entry μ))} {n i j : Nat}
    (hids : ∀ txns ∈ histories, ∀ e ∈ txns, e.id < n)
    (h : Consecutive histories i j) : i < n ∧ j < n := by
  obtain ⟨txns, ht, p, hp, rfl, rfl⟩ := h
  obtain ⟨h₁, h₂⟩ := List.of_mem_zip (a := p.1) (b := p.2) hp
  exact ⟨hids txns ht _ h₁, hids txns ht _ (List.mem_of_mem_tail h₂)⟩

/-- The constraints of chains are input for the heuristic if their writers and
readers are transactions of the graph, and a reader that writes follows some
version. -/
theorem prunable_coalesceAll [LinearOrder κ] (o : SetOrder) {W : Versions.Workload κ Nat}
    {link : κ → Nat → Nat → Prop}
    {chains : ChainTable κ} {readfrom : ReadFrom κ} (hC : Versions.Chaining W link chains.of)
    (hpos : 0 < g.nNodes) (hg : g.Bounded) (hw : ∀ k x, W.writes k x → x < g.nNodes ∧ x ≠ 0)
    (hr : ∀ k a r, W.writes k a → r ∈ readfrom.getD (k, a) [] → r < g.nNodes)
    (hlink : Precedence.Acyclic g.KnownBC →
      ∀ k a b, W.writes k a → b ∈ readfrom.getD (k, a) [] → W.writes k b →
      ∃ x, link k x b) : Prunable g (coalesceAll o chains readfrom) where
  pos := hpos
  bounded := hg
  nodup := nodup_coalesceAll o chains readfrom
  ne_nil := ne_nil_coalesceAll o chains readfrom
  valid p hm e he := by
    have hall : (∀ e ∈ p.1, e.src < g.nNodes ∧ e.dst < g.nNodes ∧ e.dst ≠ 0) ∧
        ∀ e ∈ p.2, e.src < g.nNodes ∧ e.dst < g.nNodes ∧ e.dst ≠ 0 :=
      forall_coalesceAll o hC (fun k a b ha hb => ⟨(hw k a ha).1, hw k b hb⟩)
        (fun k a r b ha hmem hb => ⟨hr k a r ha hmem, hw k b hb⟩) p hm
    rcases he with he | he
    · exact hall.1 e he
    · exact hall.2 e he
  loopless ha := src_ne_coalesceAll o hC (hlink ha)

end Bounds

namespace Append

variable {κ ν : Type} [LinearOrder κ] {o : SetOrder} {lines : List (LogTxn κ ν)}
  {histories : List (List (Entry (Mop κ (ListValue ν))))} {strongSession : Bool}
  {chains : ChainTable κ}
  {readfrom : ReadFrom κ} {g : ArgumentedPolyGraph κ} {con : List Constraint}

theorem Known.dst_lt (hids : ∀ txns ∈ histories, ∀ e ∈ txns, e.id < lines.length + 1) {e : Edge}
    (h : Known lines histories strongSession e) : e.dst < lines.length + 1 := by
  cases h with
  | session _ hc => exact (hc.mem_sessions hids).2
  | initial _ hi => exact Nat.lt_succ_of_le hi
  | read hr =>
    cases hr with
    | nil hr => exact Nat.lt_succ_of_le (lt_of_reads hr).2
    | read hr => exact Nat.lt_succ_of_le hr.lt.2
    | missed _ hw _ _ _ => exact Nat.lt_succ_of_le (Appends.lt hw).2

/-- The encoding of a log is input for the heuristic. -/
theorem Encoded.prunable (h : Encoded o lines histories strongSession chains readfrom g con)
    (hids : ∀ txns ∈ histories, ∀ e ∈ txns, e.id < lines.length + 1) : Prunable g con := by
  have hn := h.nNodes
  have hg : g.Bounded := by
    refine bounded_of h.inv h.sessions (hn ▸ hids) (fun a b hab => ?_)
    obtain ⟨e, he, hk⟩ := (h.before a b).mp hab
    refine ⟨e, he, ?_⟩
    rw [hn]
    rcases hk with hk | hm
    · exact hk.dst_lt hids
    · obtain ⟨k, C, x, y, r, hC, hl, _, _, hcmd⟩ := (mem_inferScript o chains readfrom _).mp hm
      cases hcmd
      exact Nat.lt_succ_of_le (Writes.lt (h.chaining.writes_of_mem hC hl.mem.2)).2
  rw [h.constraints]
  refine prunable_coalesceAll o h.chaining ?_ hg (fun k x hw => ?_) (fun k a r ha hr => ?_)
    (fun _ k a b ha hr hb => ?_)
  · omega
  · have hlt := Writes.lt hw
    omega
  · have hlt := ReadsFrom.lt ((h.readers k a r ha).mp hr)
    omega
  · exact ⟨a, .inl ⟨hb, (h.readers k a b ha).mp hr⟩⟩

end Append

namespace AdyaSIChain

variable {κ : Type} [LinearOrder κ] [ToString κ] {o : SetOrder} {H : List (Entry (Mop κ Value))}
  {histories : List (List (Entry (Mop κ Value)))} {strongSession hasFinal : Bool} {t : Tables κ}
  {known : KnownGraph κ}

/-- What the two parsers of register logs hand to the builder: the EDN parser
leaves T0 without a value, the JSON parser rejects a transaction that does not
pass `check_INT`. -/
def Parsed (H : List (Entry (Mop κ Value))) : Prop :=
  (∃ e, H.head? = some e ∧ e.value = none) ∨
    ∀ e ∈ H, ∀ txn, e.value = some txn → checkINT txn = .ok true

omit [ToString κ] in
theorem finalReadScript_dst_lt (ht : t.Of H) (hlast : H.length - 1 < H.length)
    {p : κ × Value} {e : Edge}
    (hm : .ok (.edge e) ∈ finalReadScript o t.extWrites (H.length - 1) p) : e.dst < H.length := by
  rcases writers_cases (extIndex_spec ht.extWrites) o p.1 p.2
    with ⟨he, _⟩ | ⟨i, he, hi⟩ | ⟨i, i', l, he, _⟩ <;>
    simp only [finalReadScript, he] at hm
  · rcases List.mem_cons.mp hm with hm | hm
    · cases hm
      exact hlast
    · split at hm <;> simp at hm
  · rcases List.mem_cons.mp hm with hm | hm
    · cases hm
      exact hlast
    · obtain ⟨x, _, hx⟩ := List.mem_map.mp hm
      cases hx
      exact hi.lt.2
  · simp at hm

omit [ToString κ] in
theorem finalScript_dst_lt (ht : t.Of H) {e : Edge}
    (hm : .ok (.edge e) ∈ finalScript o H t.extWrites) :
    e.dst < H.length := by
  have hlast : H.length - 1 < H.length :=
    Nat.sub_lt (List.length_pos_iff.mpr ht.loaded.1) Nat.one_pos
  cases hd : finalDicts H with
  | error err =>
    rw [finalScript, hd] at hm
    cases List.mem_singleton.mp hm
  | ok ds =>
    obtain ⟨d₁, d₂⟩ := ds
    cases (mem_finalScript hd).mp hm with
    | inl h =>
      obtain ⟨k, v, _, hm⟩ := h
      exact finalReadScript_dst_lt ht hlast hm
    | inr h =>
      obtain ⟨i, _, he⟩ := h
      cases he
      exact hlast

/-- Known edges end inside the history. -/
theorem known_dst_lt (ht : t.Of H) (hids : ∀ txns ∈ histories, ∀ e ∈ txns, e.id < H.length)
    {limit : Nat × Nat → Nat}
    {e : Edge}
    (h : KnownStep H histories strongSession t.initial limit (AdyaSI.finOf o H hasFinal t)
      (.ok (.edge e))) :
    e.dst < H.length := by
  cases h with
  | session _ hc => exact (hc.mem_sessions hids).2
  | first _ hi => exact hi
  | read _ hr => exact hr.lt.2
  | initialRead hr _ _ => exact hr.lt.2
  | initialOther _ _ _ hw _ => exact hw.lt.2
  | omitted _ hu _ =>
    obtain ⟨txn, v, succ, htxn, _⟩ := hu
    exact htxn.lt
  | final hm =>
    rw [AdyaSI.finOf] at hm
    split at hm
    · exact finalScript_dst_lt ht hm
    · cases hm

section Output

variable (hb : Built o H histories strongSession hasFinal t known) (ht : t.Of H) (hP : Parsed H)
include hb ht hP

/-- A final reader that writes the key follows some version of it, unless the
known edges have a cycle. -/
theorem Built.exists_rmw_of_final {g : ArgumentedPolyGraph κ}
    (hg : ∀ e, Known o H histories strongSession hasFinal t (.ok (.edge e)) →
      g.Before e.before.1 e.before.2)
    (ha : Precedence.Acyclic g.KnownBC) {k : κ} {a b : Nat} (hf : FinalRead H hasFinal k a b)
    (hw : (workload H).writes k b) : ∃ x, Rmw H k x b := by
  have hwr := (hb.final_edges ht hf).1
  obtain ⟨_, rfl, v, hv, hwa⟩ := hf
  obtain ⟨v', hwb⟩ := hw
  obtain ⟨k1, k2, rs, dead, fin, rest, htxn, item, hi, rfl, rfl⟩ := hv.exists_record hwb.lt.1
  obtain ⟨reads, hreads⟩ := extIndex_each ht.extReads htxn
  rcases hP with ⟨e₀, hhead, hnone⟩ | hINT
  · obtain ⟨u, hu⟩ := extReadsFn_range hreads item hi
    have hread : Has extReadsFn H (H.length - 1) item.id u := ⟨_, reads, htxn, hreads, hu⟩
    by_cases hx : ∃ x, Has extWritesFn H x item.id u
    · obtain ⟨x, hx⟩ := hx
      exact ⟨x, u, hx, hread, v', hwb⟩
    · -- what it read is initial, so it begins before `a` commits, whose version it read as well
      have hinit : t.initial = none := by
        have h := ht.initial
        rw [initialState, hhead] at h
        simp only [hnone] at h
        exact (Except.ok.inj h).symm
      have hne : a ≠ H.length - 1 := by
        obtain ⟨c, hc, hvalid⟩ := hb.valid _ hwr
        cases hc
        exact hvalid.1
      have hrw : Known o H histories strongSession hasFinal t
        (.ok (.edge ⟨H.length - 1, a, .rw⟩)) :=
        .initialOther hread (fun i hi => hx ⟨i, hi⟩) (by rw [hinit]; rfl) hwa hne
      exact absurd (Relation.TransGen.tail (.single (.known (hg _ hwr))) (.known (hg _ hrw)))
        (ha (.c a))
  · obtain ⟨hpos, e, he, htxn⟩ := htxn
    have hvalue :=
      extReadsFn_range_of_checkINT hreads (hINT e (List.mem_of_getElem? he) _ htxn) item hi
    exact ⟨a, item.val, hwa, ⟨_, reads, ⟨hpos, e, he, htxn⟩, hreads, hvalue⟩, v', hwb⟩

/-- What the chain builder returns is input for the heuristic. -/
theorem Built.prunable (hids : ∀ txns ∈ histories, ∀ e ∈ txns, e.id < H.length)
    {chains : ChainTable κ}
    (hc : Versions.Chaining (workload H) (Rmw H) chains.of) {g : ArgumentedPolyGraph κ}
    (hp : Played (inferScript o chains known.readfrom) known.g g) :
    Prunable g (coalesceAll o chains known.readfrom) := by
  have hn : g.nNodes = H.length := hp.nNodes.trans hb.nNodes
  have hg : g.Bounded := by
    refine bounded_of (hp.inv hb.inv) (hp.histories.trans hb.sessions) (hn ▸ hids)
      (fun a b hab => ?_)
    rw [hn]
    rcases (hp.before a b).mp hab with hab | ⟨e, hm, he⟩
    · obtain ⟨e, he, hk⟩ := (hb.before a b).mp hab
      exact ⟨e, he, known_dst_lt ht hids hk⟩
    · refine ⟨e, he, ?_⟩
      obtain ⟨k, C, x, y, r, hC, hl, _, _, hcmd⟩ :=
        (mem_inferScript o chains known.readfrom _).mp hm
      cases hcmd
      obtain ⟨v, hv⟩ := hc.writes_of_mem hC hl.mem.2
      exact hv.lt.2
  have hbefore : ∀ e, Known o H histories strongSession hasFinal t (.ok (.edge e)) →
    g.Before e.before.1 e.before.2 :=
    fun e he => (hp.before _ _).mpr (.inl ((hb.before _ _).mpr ⟨e, rfl, he⟩))
  refine prunable_coalesceAll o hc ?_ hg (fun k x hw => ?_) (fun k a r _ hr => ?_)
    (fun ha k a b hwa hr hwb => ?_)
  · rw [hn]
    exact List.length_pos_iff.mpr ht.loaded.1
  · obtain ⟨v, hv⟩ := hw
    have hlt := hv.lt
    omega
  · rw [hn]
    exact hb.reader_lt ht hr
  · rcases hb.readsFrom_of_recorded ht ⟨hwa, hr⟩ with ⟨v, hw, hread⟩ | hf
    · exact ⟨a, v, hw, hread, hwb⟩
    · exact hb.exists_rmw_of_final ht hP hbefore ha hf hwb

end Output

end AdyaSIChain

section Main

variable {κ : Type} [LinearOrder κ] [ToString κ]

/-- Graph and constraints that a builder returned for a parsed log, with any
session order on its transactions. -/
inductive EncodingOf (o : SetOrder) : ArgumentedPolyGraph κ → List Constraint → Prop
  | chain {H : List (Entry (Mop κ Value))} {histories : List (List (Entry (Mop κ Value)))}
      {strongSession hasFinal : Bool}
    {g : ArgumentedPolyGraph κ} {con : List Constraint} : AdyaSIChain.Parsed H →
    (∀ txns ∈ histories, ∀ e ∈ txns, e.id < H.length) →
    AdyaSIChain.constructEncoding o H histories strongSession hasFinal = .ok (g, con) →
    EncodingOf o g con
  | append {ν : Type} [DecidableEq ν] {lines : List (Append.LogTxn κ ν)}
    {histories : List (List (Entry (Mop κ (ListValue ν))))} {strongSession : Bool}
    {g : ArgumentedPolyGraph κ} {con : List Constraint} :
    (∀ txns ∈ histories, ∀ e ∈ txns, e.id < lines.length + 1) →
    Append.constructEncoding o (Append.parse o lines).1 histories strongSession = .ok (g, con) →
    EncodingOf o g con

theorem EncodingOf.prunable {o : SetOrder} {g : ArgumentedPolyGraph κ} {con : List Constraint}
    (h : EncodingOf o g con) :
    Prunable g con := by
  cases h with
  | chain hP hids hok =>
    obtain ⟨t, known, chains, ht, hb, hc, hp, rfl⟩ := AdyaSIChain.encoded_of_ok hok
    exact hb.prunable ht hP hids hc hp
  | append hids hok =>
    obtain ⟨chains, readfrom, h⟩ := Append.encoded_of_ok hok
    exact h.prunable hids

/-- The retry loop of algorithms 6 and 8 ends with the verdict of the checker on
the unpruned input, and only an unsatisfiable input is rejected while sorting. -/
theorem mainAlgo6812_eq_check (o : SetOrder) (monosat : GraphSat.Oracle) {g : ArgumentedPolyGraph κ}
    {con : List Constraint} (h : EncodingOf o g con) : ∃ enough, ∀ fuel, enough ≤ fuel →
      mainAlgo6812 fuel o (.ok (g, con))
        (fun g con => monosat.solve (MonoBCPolyGraphCheckerOptimized.check o g con)) =
          some (.ok (monosat.solve (MonoBCPolyGraphCheckerOptimized.check o g con))) ∧
        ∀ msg, g.myTopoSort fuel o = fueled (.error (.reject msg)) →
          ¬ GraphSat.Satisfiable (MonoBCPolyGraphCheckerOptimized.check o g con) := by
  refine ⟨2 * g.nNodes + 11,
    fun fuel hf => ⟨h.prunable.mainAlgo6812_eq monosat (by omega), fun msg hrej => ?_⟩⟩
  rcases ArgumentedPolyGraph.myTopoSort_cases o h.prunable.bounded.inRange fuel (by omega) with
    ⟨_, nid2rank, arr, hsort, _⟩ | ⟨hc, _⟩
  · rw [hsort] at hrej
    cases hrej
  · exact h.prunable.unsatisfiable_of_cycle hc

/-- Two writers of a key and a reader of the first. -/
def racingWriters : List (Entry (Mop Nat Value)) :=
  [⟨0, none⟩, ⟨1, some [.w 1 (.int 5) true]⟩, ⟨2, some [.w 1 (.int 6) true]⟩,
    ⟨3, some [.r 1 (.int 5) false]⟩]

def racingSessions : List (List (Entry (Mop Nat Value))) :=
  [[⟨1, some [.w 1 (.int 5) true]⟩, ⟨3, some [.r 1 (.int 5) false]⟩],
    [⟨2, some [.w 1 (.int 6) true]⟩]]

def racingEncoding : ArgumentedPolyGraph Nat × List Constraint :=
  (AdyaSIChain.constructEncoding .stored racingWriters racingSessions true false).toOption.getD
    (.init 0, [])

theorem encodingOf_racing : EncodingOf .stored racingEncoding.1 racingEncoding.2 :=
  have hok : AdyaSIChain.constructEncoding .stored racingWriters racingSessions true false =
    .ok racingEncoding := rfl
  .chain (.inl ⟨_, rfl, rfl⟩) (by decide) hok

theorem mainAlgo6812_eq_check_racing : EncodingOf .stored racingEncoding.1 racingEncoding.2 ∧
    racingEncoding.2.length = 1 ∧ ∃ enough, ∀ fuel, enough ≤ fuel →
      mainAlgo6812 fuel .stored (.ok (racingEncoding.1, racingEncoding.2))
          (fun g con =>
            GraphSat.Oracle.exact.solve (MonoBCPolyGraphCheckerOptimized.check .stored g con)) =
        some (.ok (GraphSat.Oracle.exact.solve
          (MonoBCPolyGraphCheckerOptimized.check .stored racingEncoding.1 racingEncoding.2))) ∧
      ∀ msg, racingEncoding.1.myTopoSort fuel .stored = fueled (.error (.reject msg)) →
        ¬ GraphSat.Satisfiable
          (MonoBCPolyGraphCheckerOptimized.check .stored racingEncoding.1 racingEncoding.2) :=
  ⟨encodingOf_racing, rfl, mainAlgo6812_eq_check .stored .exact encodingOf_racing⟩

end Main

end Viper
