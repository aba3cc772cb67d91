import Viper.AppendSpec
import Viper.ChainOrder

/-!
# The encoding of a list-append log

A completed encoding consists of the known edges of the log, the edges inferred
from chains of successive appenders, and one constraint for every two chains.
An order satisfies it exactly when the known edges hold and the chains are legal.
-/
namespace Viper

open Py Chains Versions Precedence

namespace Append

variable {κ ν : Type} [LinearOrder κ]

/-- Who appends to a key and who reads whose version of it. -/
def workload (lines : List (LogTxn κ ν)) : Workload κ Nat := ⟨Writes lines, ReadsFrom lines⟩

structure Encoded (o : SetOrder) (lines : List (LogTxn κ ν))
    (histories : List (List (Entry (Mop κ (ListValue ν)))))
    (strongSession : Bool) (chains : ChainTable κ) (readfrom : ReadFrom κ)
    (g : ArgumentedPolyGraph κ) (con : List Constraint) : Prop where
  nNodes : g.nNodes = lines.length + 1
  sessions : g.histories = histories.map (·.map Entry.id)
  inv : g.Inv
  before : ∀ a b, g.Before a b ↔ ∃ e, e.before = (a, b) ∧
    (Known lines histories strongSession e ∨ .ok (.edge e) ∈ inferScript o chains readfrom)
  valid : ∀ e, Known lines histories strongSession e ∨
    .ok (.edge e) ∈ inferScript o chains readfrom →
    (Cmd.edge e).Valid (lines.length + 1)
  sourced : Sourced lines
  chaining : Chaining (workload lines) (Successor lines) chains.of
  readers : ReadersOf readfrom (workload lines)
  constraints : con = coalesceAll o chains readfrom

variable {o : SetOrder} {lines : List (LogTxn κ ν)}
  {histories : List (List (Entry (Mop κ (ListValue ν))))} {strongSession : Bool}

theorem ReadsFrom.writes {k : κ} {i j : Nat} (h : ReadsFrom lines k i j) : Writes lines k i := by
  obtain ⟨xs, x, _, _, hx⟩ := h
  exact ⟨x, hx⟩

theorem ReadsFrom.lt {k : κ} {i j : Nat} (h : ReadsFrom lines k i j) :
    0 < j ∧ j ≤ lines.length := by
  obtain ⟨xs, x, hr, _, _⟩ := h
  exact lt_of_reads hr

theorem Successor.writes {k : κ} {a b : Nat} (h : Successor lines k a b) :
    Writes lines k a ∧ Writes lines k b := by
  rcases h with ⟨hb, hr⟩ | ⟨j, xs, x, y, _, _, ha, hb, _⟩
  · exact ⟨hr.writes, hb⟩
  · exact ⟨⟨x, ha⟩, ⟨y, hb⟩⟩

theorem Built.readersOf {st : KnownGraph κ} (hb : Built lines histories strongSession st) :
    ReadersOf st.readfrom (workload lines) := by
  intro k a r hw
  have hne : a ≠ 0 := Nat.pos_iff_ne_zero.mp hw.lt.1
  rw [hb.readers]
  simp [workload, hne]

/-- Chains that merge the successors of a log encode it. -/
theorem Built.encoded {st : KnownGraph κ} (hb : Built lines histories strongSession st)
    {chains : ChainTable κ}
    (hc : Chaining (workload lines) (Successor lines) chains.of) {g : ArgumentedPolyGraph κ}
    (hg : play st.g (inferScript o chains st.readfrom) = .ok g) :
    Encoded o lines histories strongSession chains st.readfrom g
      (coalesceAll o chains st.readfrom) := by
  have hp := play_played hg
  refine ⟨hp.nNodes.trans hb.nNodes, hp.histories.trans hb.sessions, hp.inv hb.inv,
    fun a b => ?_, ?_, hb.sourced, hc, hb.readersOf, rfl⟩
  · rw [hp.before, hb.before, ← exists_or]
    exact exists_congr fun e => by tauto
  · rintro e (he | he)
    · exact hb.valid e he
    · obtain ⟨c, hc', hv⟩ := play_valid hg _ he
      cases hc'
      exact hb.nNodes ▸ hv

theorem encoded_of_ok [DecidableEq ν] [ToString κ] {g : ArgumentedPolyGraph κ}
    {con : List Constraint}
    (h : constructEncoding o (parse o lines).1 histories strongSession = .ok (g, con)) :
    ∃ chains readfrom, Encoded o lines histories strongSession chains readfrom g con := by
  rw [constructEncoding, bind_eq_ok] at h
  obtain ⟨⟨st, X⟩, hst, hgen⟩ := h
  obtain ⟨hb, hX⟩ := built_of_ok o hst
  obtain ⟨chains, hc, hg, rfl⟩ := genConstraints_of_ok hX hgen
  refine ⟨chains, st.readfrom, hb.encoded (fun k => ?_) hg⟩
  exact (hc k).congr (writes_iff k) (hb.wwpairs k)

omit [LinearOrder κ] in
/-- The sessions of a parsed log and the initial order are valid edges. -/
theorem valid_base (o : SetOrder) {x : Except Err Cmd}
    (hx : x ∈ baseScript lines (parse o lines).2 strongSession) :
    ∃ c, x = .ok c ∧ c.Valid (lines.length + 1) := by
  obtain ⟨e, rfl, ⟨i, j, rfl, _, hc⟩ | ⟨i, rfl, hi, _⟩⟩ := (mem_baseScript x).mp hx
  · obtain ⟨hlt, p, hi, hj⟩ := consecutive_parse o lines hc
    exact ⟨_, rfl, Nat.ne_of_lt hlt, Nat.pos_iff_ne_zero.mp (lt_of_process hj).1,
      Nat.lt_succ_of_le (lt_of_process hi).2⟩
  · exact ⟨_, rfl, Nat.ne_of_lt hi, Nat.pos_iff_ne_zero.mp hi, Nat.succ_pos _⟩

/-- Known edges are valid unless a transaction reads its own version. -/
theorem valid_known (o : SetOrder) (hown : ∀ k j, ¬ ReadsFrom lines k j j) {e : Edge}
    (he : Known lines (parse o lines).2 strongSession e) :
    (Cmd.edge e).Valid (lines.length + 1) := by
  rcases (known_iff e).mp he with he | hr
  · obtain ⟨c, hc, hv⟩ := valid_base o he
    cases hc
    exact hv
  · cases hr with
    | nil hr =>
      obtain ⟨hj, _⟩ := lt_of_reads hr
      exact ⟨Nat.ne_of_lt hj, Nat.pos_iff_ne_zero.mp hj, Nat.succ_pos _⟩
    | @read k a j hr =>
      refine ⟨fun he => hown k a ?_, Nat.pos_iff_ne_zero.mp hr.lt.1,
        Nat.lt_succ_of_le hr.writes.lt.2⟩
      obtain rfl : a = j := he
      exact hr
    | missed hr hw _ hne _ =>
      exact ⟨Ne.symm hne, Nat.pos_iff_ne_zero.mp (Appends.lt hw).1,
        Nat.lt_succ_of_le (lt_of_reads hr).2⟩

/-- The builder completes when every element read has one appender, nobody reads
its own version, and successors form chains. -/
theorem encoding_total [DecidableEq ν] [ToString κ] (o : SetOrder) (strongSession : Bool)
    (hS : Sourced lines) (hown : ∀ k j, ¬ ReadsFrom lines k j j)
    (hfun : ∀ k a b b', Successor lines k a b → Successor lines k a b' → b = b')
    (hinj : ∀ k a a' b, Successor lines k a b → Successor lines k a' b → a = a')
    (hac : ∀ k, Acyclic (Successor lines k)) :
    ∃ g con chains readfrom, constructEncoding o (parse o lines).1 (parse o lines).2 strongSession =
      .ok (g, con) ∧
      Encoded o lines (parse o lines).2 strongSession chains readfrom g con := by
  obtain ⟨st, X, hst⟩ := createKnowngraph_total o hS
    (fun e (he : Known lines (parse o lines).2 strongSession e) => valid_known o hown he) hfun
  obtain ⟨hb, hX⟩ := built_of_ok o hst
  have hgen := genConstraints_cases (o := o) (fun _ _ => .ok ()) (fun _ _ _ => rfl) hX
    (fun k a a' b ha ha' => hinj k a a' b ((hb.wwpairs k a b).mp ha) ((hb.wwpairs k a' b).mp ha'))
    (fun k a b hab => by
      rw [writes_iff, writes_iff]
      exact ((hb.wwpairs k a b).mp hab).writes) st.g st.readfrom
  rcases hgen with ⟨chains, hc, hgen⟩ | ⟨k, C, hC, hclosed, _⟩
  · have hchain : Chaining (workload lines) (Successor lines) chains.of :=
      fun k => (hc k).congr (writes_iff k) (hb.wwpairs k)
    have hvalid : ∀ x ∈ inferScript o chains st.readfrom, ∃ c, x = .ok c ∧ c.Valid st.g.nNodes := by
      intro x hx
      obtain ⟨k, C, a, b, r, hCm, hl, hr, hne, rfl⟩ :=
        (mem_inferScript o chains st.readfrom x).mp hx
      have hw := hchain.writes_of_mem hCm hl.mem.2
      have hr' := (hb.readersOf k a r (hchain.writes_of_mem hCm hl.mem.1)).mp hr
      refine ⟨_, rfl, hne, Nat.pos_iff_ne_zero.mp (Writes.lt hw).1, ?_⟩
      rw [hb.nNodes]
      exact Nat.lt_succ_of_le (ReadsFrom.lt hr').2
    obtain ⟨g, hg, _⟩ := play_spec hvalid
    refine ⟨g, _, chains, st.readfrom, ?_, hb.encoded hchain hg⟩
    rw [constructEncoding, hst, ok_bind]
    exact hgen.trans (by rw [hg]; rfl)
  · have hlink : C.txns.IsChain (Successor lines k) := hC.imp (fun a b => (hb.wwpairs k a b).mp)
    exact absurd (Chain.cycle_of_closed hlink ((hb.wwpairs k _ _).mp hclosed)) (hac k C.first)

section Order

variable {chains : ChainTable κ} {readfrom : ReadFrom κ} {g : ArgumentedPolyGraph κ}
  {con : List Constraint} (h : Encoded o lines histories strongSession chains readfrom g con)
include h

/-- The encoding asks for an order in which the known edges hold and the chains are legal. -/
theorem Encoded.ordered_iff [LinearOrder Event] : Ordered g.nNodes (g.edgeList o) con ↔
    (∀ i, i ≤ lines.length → Event.s i < Event.c i) ∧
    (∀ e, Known lines histories strongSession e → e.Holds) ∧
      ChainLegal (workload lines) chains.of Event.s Event.c := by
  have hlt : ∀ i, i < g.nNodes ↔ i ≤ lines.length := fun i => by rw [h.nNodes, Nat.lt_succ_iff]
  have hedges : (∀ e ∈ g.edgeList o, e.Holds) ↔
      (∀ e, Known lines histories strongSession e → e.Holds) ∧
      ∀ e, .ok (.edge e) ∈ inferScript o chains readfrom → e.Holds := by
    rw [holds_edgeList_iff o h.inv h.before]
    simp only [or_imp, forall_and]
  have hreads : (∀ e, Known lines histories strongSession e → e.Holds) →
      ∀ {k i j}, (workload lines).readsFrom k i j → Event.c i < Event.s j :=
    fun hk _ _ _ hr => hk _ (.read (.read hr))
  constructor
  · intro ho
    obtain ⟨hk, hi⟩ := hedges.mp ho.known
    refine ⟨fun i hi => ho.begins i ((hlt i).mpr hi), hk, ?_⟩
    exact (chainLegal_iff (o := o) h.chaining h.readers).mp
      ⟨hreads hk, hi, h.constraints ▸ ho.choice⟩
  · rintro ⟨hb, hk, hL⟩
    obtain ⟨_, hi, hchoice⟩ := (chainLegal_iff (o := o) h.chaining h.readers).mpr hL
    refine ⟨fun i hi => hb i ((hlt i).mp hi),
      fun i h0 hi => hk _ (.initial h0 ((hlt i).mp hi)), hedges.mpr ⟨hk, hi⟩, ?_⟩
    rw [h.constraints]
    exact hchoice

theorem Encoded.satisfiable_iff :
    GraphSat.Satisfiable (MonoBCPolyGraphCheckerOptimized.check o g con) ↔
    ∃ _ : LinearOrder Event, Ordered g.nNodes (g.edgeList o) con := by
  refine MonoBCPolyGraphCheckerOptimized.satisfiable_check_iff o ?_ ?_ ?_ ?_
  · rw [h.nNodes]
    exact Nat.succ_pos _
  · exact fun e he => h.inv.dst_ne ((g.mem_edgeList o e).mp he).2
  · rw [h.constraints]
    exact dst_ne_coalesceAll o h.chaining (fun k x hw => Nat.pos_iff_ne_zero.mp hw.lt.1)
  · rw [h.constraints]
    exact ne_nil_coalesceAll o chains readfrom

end Order

end Append

end Viper
