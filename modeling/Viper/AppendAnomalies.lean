import Viper.AppendFaults

/-!
# Anomalies that list-append logs hide

The order of the elements inside a list, the elements a list lacks and the reads
behind the first operation on a key are facts about a log that its explanations
leave out. A log is refused for them only when another fact refuses it.
-/
namespace Viper

open Py Chains Precedence

namespace Append

variable {κ ν : Type} [LinearOrder κ]

section Neighbours

/-- Observed neighbours are ordered in every acyclic instantiation. -/
def Enforced (lines : List (LogTxn κ ν)) (g : ArgumentedPolyGraph κ)
    (con : List Constraint) : Prop :=
  ∀ k a b, Observed lines k a b → ∀ side, Acyclic (BCEdge g con side) →
    Relation.TransGen (BCEdge g con side) (.c a) (.s b)

/-- Two keys show the same two transactions in opposite orders. -/
def Opposed (lines : List (LogTxn κ ν)) : Prop :=
  ∃ k k' a b, Observed lines k a b ∧ Observed lines k' b a

theorem Observed.lt {lines : List (LogTxn κ ν)} {k : κ} {a b : Nat} (h : Observed lines k a b) :
    a ≤ lines.length ∧ b ≤ lines.length := by
  obtain ⟨ha, hb⟩ := Successor.writes (.inr h)
  exact ⟨ha.lt.2, hb.lt.2⟩

theorem Enforced.refutes {lines : List (LogTxn κ ν)} {g : ArgumentedPolyGraph κ}
    {con : List Constraint}
    (h : Enforced lines g con) (hn : g.nNodes = lines.length + 1) (ho : Opposed lines)
    (side : Constraint → Bool) :
    ¬ Acyclic (BCEdge g con side) := by
  intro ha
  obtain ⟨k, k', a, b, hab, hba⟩ := ho
  have hbegin : ∀ i, i ≤ lines.length → BCEdge g con side (.s i) (.c i) :=
    fun i hi => .begins (hn ▸ Nat.lt_succ_of_le hi)
  have hthere := (h k a b hab side ha).tail (hbegin b hab.lt.2)
  have hback := (h k' b a hba side ha).tail (hbegin a hab.lt.1)
  exact ha (.c a) (hthere.trans hback)

variable [DecidableEq ν] [ToString κ]

/-- The order of neighbours is enforced, and contradictory orders are refused,
exactly when the remaining facts of the log enforce it. -/
theorem observed_enforced_iff (o : SetOrder) (lines : List (LogTxn κ ν))
    (histories : List (List (Entry (Mop κ (ListValue ν))))) (strongSession : Bool)
    (g : ArgumentedPolyGraph κ)
    (con : List Constraint)
    (hok : constructEncoding o (parse o lines).1 histories strongSession = .ok (g, con)) :
    (Enforced lines g con ∧ (Opposed lines → ∀ side, ¬ Acyclic (BCEdge g con side))) ↔
      ∀ k a b, Observed lines k a b →
      ∀ _ : LinearOrder Event, Explains lines histories strongSession →
        Event.c a < Event.s b := by
  obtain ⟨chains, readfrom, he⟩ := encoded_of_ok hok
  have hreach : ∀ a b,
      (∀ side, Acyclic (BCEdge g con side) → Relation.TransGen (BCEdge g con side) (.c a) (.s b)) ↔
      ∀ _ : LinearOrder Event, Explains lines histories strongSession → Event.c a < Event.s b :=
    fun a b => he.reaches_iff (by simp)
  constructor
  · intro h k a b hab
    exact (hreach a b).mp (h.1 k a b hab)
  · intro h
    have henf : Enforced lines g con := fun k a b hab => (hreach a b).mpr (h k a b hab)
    exact ⟨henf, fun ho => henf.refutes he.nNodes ho⟩

/-- Two blind appenders to two keys, seen in opposite orders. -/
def opposedLog : List (LogTxn Nat Nat) :=
  [⟨1, [.append 1 10, .append 2 10]⟩, ⟨2, [.append 1 20, .append 2 20]⟩,
    ⟨3, [.r 1 (some [10, 20])]⟩, ⟨4, [.r 2 (some [20, 10])]⟩]

theorem observed_opposedLog : Observed opposedLog 1 1 2 ∧ Observed opposedLog 2 2 1 := by
  constructor
  · exact ⟨3, [10, 20], 10, 20, rfl,
      ⟨[], [], rfl⟩, by simp [Appends, opsOf, opposedLog], by simp [Appends, opsOf, opposedLog],
      by decide⟩
  · exact ⟨4, [20, 10], 20, 10, rfl,
      ⟨[], [], rfl⟩, by simp [Appends, opsOf, opposedLog], by simp [Appends, opsOf, opposedLog],
      by decide⟩

theorem observed_enforced_iff_opposed : ∃ g con,
    constructEncoding .stored (parse .stored opposedLog).1 (parse .stored opposedLog).2 false =
    .ok (g, con) ∧
      ((Enforced opposedLog g con ∧ (Opposed opposedLog → ∀ side, ¬ Acyclic (BCEdge g con side))) ↔
        ∀ k a b, Observed opposedLog k a b → ∀ _ : LinearOrder Event,
          Explains opposedLog (parse .stored opposedLog).2 false → Event.c a < Event.s b) :=
  ⟨_, _, rfl, observed_enforced_iff .stored opposedLog _ false _ _ rfl⟩

/-- The appenders overlap, and so do the readers behind them. -/
def overlapRank : Event → Nat
  | .s i => if i = 0 then 0 else if i ≤ 2 then 2 else 4
  | .c i => if i = 0 then 1 else if i ≤ 2 then 3 else 5

/-- The contradictory orders are accepted. -/
theorem opposedLog_accepted : Opposed opposedLog ∧ ∃ g con,
    constructEncoding .stored (parse .stored opposedLog).1 (parse .stored opposedLog).2 false =
    .ok (g, con) ∧
      (∃ side, Acyclic (BCEdge g con side)) ∧ ¬ Enforced opposedLog g con := by
  have hopp : Opposed opposedLog := ⟨1, 2, 1, 2, observed_opposedLog⟩
  obtain ⟨g, con, hok, side, hacyclic⟩ : Accepted .stored opposedLog false :=
    accepted_of_along overlapRank (by decide)
  obtain ⟨_, _, he⟩ := encoded_of_ok hok
  exact ⟨hopp, g, con, hok, ⟨side, hacyclic⟩, fun henf => henf.refutes he.nNodes hopp side hacyclic⟩

end Neighbours

section Partial

/-- `j` reads a part of what `i` appends to `k`. -/
structure PartialRead (lines : List (LogTxn κ ν)) (j : Nat) (k : κ) (xs : List ν)
    (i : Nat) : Prop where
  reads : Reads lines j k xs
  other : i ≠ j
  seen : ∃ x, Appends lines i k x ∧ x ∈ xs
  missed : ∃ y, Appends lines i k y ∧ y ∉ xs

/-- A reader of `k` misses an append of `i`, and has not read the version of `i`. -/
def Misses (lines : List (LogTxn κ ν)) (j : Nat) (k : κ) (i : Nat) : Prop :=
  i ≠ j ∧ ¬ ReadsFrom lines k i j ∧ ∃ xs y, Reads lines j k xs ∧ Appends lines i k y ∧ y ∉ xs

variable {lines : List (LogTxn κ ν)} {j : Nat} {k : κ} {i : Nat}

theorem misses_iff : (∃ k, Misses lines j k i) ↔ ReadStep lines (.edge ⟨j, i, .rw⟩) := by
  constructor
  · rintro ⟨k, hne, hno, xs, y, hr, hy, hyn⟩
    exact .missed hr hy hyn hne (fun z hz hw => hno ⟨xs, z, hr, hz, hw⟩)
  · intro h
    cases h with
    | @missed _ k xs _ y hr hy hyn hne hz =>
      refine ⟨k, hne, fun ⟨xs', z, hr', hz', hw⟩ => ?_, xs, y, hr, hy, hyn⟩
      cases hr.symm.trans hr'
      exact hz z hz' hw

section Orders

variable {histories : List (List (Entry (Mop κ (ListValue ν))))} {strongSession : Bool}

theorem known_rw_iff : Known lines histories strongSession ⟨j, i, .rw⟩ ↔
    ∃ k, Misses lines j k i := by
  rw [misses_iff]
  constructor
  · intro h
    cases h with
    | read h => exact h
  · exact .read

/-- An order that explains all facts of a log, except that `j` misses appends of
`i` to `k`. -/
structure ExplainsBut [LinearOrder Event] (lines : List (LogTxn κ ν))
    (histories : List (List (Entry (Mop κ (ListValue ν))))) (strongSession : Bool) (j : Nat) (k : κ)
    (i : Nat) : Prop where
  begins : ∀ i, i ≤ lines.length → Event.s i < Event.c i
  known : ∀ e, Known lines histories strongSession e →
    (e = ⟨j, i, .rw⟩ → ∃ k', k' ≠ k ∧ Misses lines j k' i) → e.Holds
  inner : ∀ k a b r, Successor lines k a b → ReadsFrom lines k a r → r ≠ b → Event.s r < Event.c b
  outer : ∀ k h t h' t', Stretch (Writes lines k) (Successor lines k) h t →
    Stretch (Writes lines k) (Successor lines k) h' t' → h ≠ h' →
      Overwritten lines k t h' ∨ Overwritten lines k t' h

variable [LinearOrder Event]

/-- What is left out of an explanation comes back as one constraint. -/
theorem explains_iff_but : Explains lines histories strongSession ↔
    ExplainsBut lines histories strongSession j k i ∧
    (Misses lines j k i → Event.s j < Event.c i) := by
  constructor
  · intro h
    refine ⟨⟨h.begins, fun e he _ => h.known e he, h.inner, h.outer⟩, fun hm => ?_⟩
    exact h.known ⟨j, i, .rw⟩ (known_rw_iff.mpr ⟨k, hm⟩)
  · rintro ⟨h, hmiss⟩
    refine ⟨h.begins, fun e he => ?_, h.inner, h.outer⟩
    by_cases hcut : e = ⟨j, i, .rw⟩ ∧ Misses lines j k i
    · obtain ⟨rfl, hm⟩ := hcut
      exact hmiss hm
    · refine h.known e he (fun heq => ?_)
      subst heq
      obtain ⟨k', hk'⟩ := known_rw_iff.mp he
      refine ⟨k', fun hk => hcut ⟨rfl, hk ▸ hk'⟩, hk'⟩

end Orders

theorem PartialRead.misses_iff {xs : List ν} (h : PartialRead lines j k xs i) :
    Misses lines j k i ↔ ¬ ReadsFrom lines k i j := by
  obtain ⟨y, hy, hyn⟩ := h.missed
  exact ⟨fun hm => hm.2.1, fun hno => ⟨h.other, hno, xs, y, h.reads, hy, hyn⟩⟩

variable [DecidableEq ν] [ToString κ]

/-- A partial read is refused exactly when a list is rejected first, or when the
log is buildable, the list does not end with the transaction it cuts, and every
order that explains the rest lets this transaction commit before the reader
begins. Where the list ends with it, the cut adds nothing. -/
theorem partialRead_refused_iff (o : SetOrder) (lines : List (LogTxn κ ν)) (strongSession : Bool)
    (j : Nat) (k : κ) (xs : List ν) (i : Nat) (h : PartialRead lines j k xs i) :
    Refuses (constructEncoding o (parse o lines).1 (parse o lines).2 strongSession) id ↔
      FirstRejected lines ∨ (Buildable lines ∧ ∀ _ : LinearOrder Event,
        ExplainsBut lines (parse o lines).2 strongSession j k i →
          ¬ ReadsFrom lines k i j ∧ Event.c i < Event.s j) := by
  rw [refuses_iff, not_exists]
  refine or_congr_right (and_congr_right (fun _ => forall_congr' (fun _ => ?_)))
  rw [explains_iff_but (j := j) (k := k) (i := i), h.misses_iff, not_and, Classical.not_imp, not_lt]
  refine imp_congr_right (fun _ => and_congr_right (fun _ => ?_))
  exact ⟨fun hle => lt_of_le_of_ne hle (by simp), le_of_lt⟩

/-- The reader stops between two appends of one transaction. -/
def cutLog : List (LogTxn Nat Nat) := [⟨1, [.append 1 10, .append 1 11]⟩, ⟨2, [.r 1 (some [10])]⟩]

theorem partialRead_cutLog : PartialRead cutLog 2 1 [10] 1 where
  reads := rfl
  other := by decide
  seen := ⟨10, by simp [Appends, opsOf, cutLog], by simp⟩
  missed := ⟨11, by simp [Appends, opsOf, cutLog], by simp⟩

theorem partialRead_refused_iff_cut : PartialRead cutLog 2 1 [10] 1 ∧
    (Refuses
      (constructEncoding .stored (parse .stored cutLog).1 (parse .stored cutLog).2 false) id ↔
      FirstRejected cutLog ∨ (Buildable cutLog ∧ ∀ _ : LinearOrder Event,
        ExplainsBut cutLog (parse .stored cutLog).2 false 2 1 1 →
          ¬ ReadsFrom cutLog 1 1 2 ∧ Event.c 1 < Event.s 2)) :=
  ⟨partialRead_cutLog, partialRead_refused_iff .stored cutLog false 2 1 [10] 1 partialRead_cutLog⟩

/-- The cut is accepted. -/
theorem cutLog_accepted : PartialRead cutLog 2 1 [10] 1 ∧ Accepted .stored cutLog false ∧
    ¬ Refuses
      (constructEncoding .stored (parse .stored cutLog).1 (parse .stored cutLog).2 false) id := by
  have haccepted : Accepted .stored cutLog false := accepted_of_along serialRank (by decide)
  refine ⟨partialRead_cutLog, haccepted, ?_⟩
  obtain ⟨g, con, hok, side, hacyclic⟩ := haccepted
  rw [hok]
  rintro (⟨msg, he⟩ | ⟨_, he, hcyclic⟩)
  · cases he
  · cases he
    exact hcyclic side hacyclic

end Partial

section Internal

/-- Reads behind the first operation on a key continue what the transaction has
read and appended itself. -/
def Continues (ops : List (LogMop κ ν)) : Prop :=
  ∀ pre k v post, ops = pre ++ .r k v :: post →
    (∀ pre₁ u pre₂, pre = pre₁ ++ .r k u :: pre₂ → (∀ w, .r k w ∉ pre₂) →
      v.getD [] = u.getD [] ++ appendsTo k pre₂) ∧
    ((∀ w, .r k w ∉ pre) → appendsTo k pre <:+ v.getD [])

def Consistent (lines : List (LogTxn κ ν)) : Prop := ∀ line ∈ lines, Continues line.value

/-- The operations without the reads behind another operation on their key. -/
def external (seen : List κ) : List (LogMop κ ν) → List (LogMop κ ν)
  | [] => []
  | .append k x :: ops => .append k x :: external (k :: seen) ops
  | .r k v :: ops => if seen.contains k then external seen ops
      else .r k v :: external (k :: seen) ops

theorem append_mem_external (k : κ) (x : ν) (seen : List κ) (ops : List (LogMop κ ν)) :
    .append k x ∈ external seen ops ↔ .append k x ∈ ops := by
  induction ops generalizing seen with
  | nil => rfl
  | cons m ops ih =>
    cases m with
    | append k' y => simp [external, ih]
    | r k' v =>
      rw [external]
      split <;> simp [ih]

theorem externalRead_external (k : κ) (seen : List κ) (ops : List (LogMop κ ν)) :
    externalRead (external seen ops) k = if k ∈ seen then none else externalRead ops k := by
  induction ops generalizing seen with
  | nil => simp [external, externalRead]
  | cons m ops ih =>
    cases m with
    | append k' y =>
      rw [external, externalRead_cons, externalRead_cons (LogMop.append k' y) ops, ih]
      by_cases hk : k' = k
      · simp [LogMop.key, hk, externalRead]
      · simp [LogMop.key, hk, Ne.symm hk]
    | r k' v =>
      rw [external, externalRead_cons (LogMop.r k' v) ops]
      by_cases hs : k' ∈ seen
      · rw [if_pos (List.contains_iff_mem.mpr hs), ih]
        by_cases hk : k' = k
        · simp [← hk, hs]
        · simp [LogMop.key, hk]
      · rw [if_neg (by simpa using hs),
          externalRead_cons (LogMop.r k' v) (external (k' :: seen) ops), ih]
        by_cases hk : k' = k
        · simp [← hk, hs, LogMop.key]
        · simp [LogMop.key, hk, Ne.symm hk]

def LogTxn.external (line : LogTxn κ ν) : LogTxn κ ν :=
  { line with value := Append.external [] line.value }

variable (lines : List (LogTxn κ ν))

theorem opsOf_external (i : Nat) :
    opsOf (lines.map LogTxn.external) i = external [] (opsOf lines i) := by
  cases i with
  | zero => rfl
  | succ i =>
    rw [opsOf, opsOf, List.getElem?_map]
    cases lines[i]? with
    | none => rfl
    | some line => rfl

theorem appends_external (i : Nat) (k : κ) (x : ν) :
    Appends (lines.map LogTxn.external) i k x ↔ Appends lines i k x := by
  rw [Appends, opsOf_external, append_mem_external, Appends]

theorem reads_external (j : Nat) (k : κ) (xs : List ν) :
    Reads (lines.map LogTxn.external) j k xs ↔ Reads lines j k xs := by
  rw [Reads, opsOf_external, externalRead_external]
  simp [Reads]

/-- The numbers of the transactions of each session stay. -/
theorem sessions_external (o : SetOrder) :
    (parse o (lines.map LogTxn.external)).2.map (·.map Entry.id) =
    (parse o lines).2.map (·.map Entry.id) := by
  simp only [parse, List.map_map, List.foldl_map]
  refine List.map_congr_left (fun tid _ => ?_)
  simp only [Function.comp, getD_sessions, List.zipIdx_map, List.filter_map, List.map_append,
    List.map_map]
  rfl

theorem consecutive_external (o : SetOrder) (i j : Nat) :
    Consecutive (parse o (lines.map LogTxn.external)).2 i j ↔
      Consecutive (parse o lines).2 i j := by
  have hids : ∀ histories : List (List (Entry (Mop κ (ListValue ν)))), Consecutive histories i j ↔
      ∃ ids ∈ histories.map (·.map Entry.id), (i, j) ∈ ids.zip ids.tail := by
    intro histories
    simp only [Consecutive, List.mem_map, exists_exists_and_eq_and, ← List.map_tail, List.zip_map,
      List.mem_map, Prod.map, Prod.mk.injEq]
  rw [hids, hids, sessions_external]

/-- The loop over the reads is told by who appends and who reads what. -/
theorem ReadStep.congr {lines lines' : List (LogTxn κ ν)} (hA : Appends lines = Appends lines')
    (hR : Reads lines = Reads lines') {x : Act κ} (h : ReadStep lines x) : ReadStep lines' x := by
  have hfrom : ReadsFrom lines = ReadsFrom lines' := by
    funext k i j
    simp only [ReadsFrom, hA, hR]
  have hnext : Successor lines = Successor lines' := by
    funext k a b
    simp only [Successor, Writes, Observed, hfrom, hA, hR]
  cases h with
  | nil hr => exact .nil (hR ▸ hr)
  | read hr => exact .read (hfrom ▸ hr)
  | missed hr hw hn hne hz => exact .missed (hR ▸ hr) (hA ▸ hw) hn hne (hA ▸ hz)
  | nilReader hr => exact .nilReader (hR ▸ hr)
  | reader hr => exact .reader (hfrom ▸ hr)
  | next hs => exact .next (hnext ▸ hs)
  | fresh hr => exact .fresh (hR ▸ hr)

/-- Explanations do not look at internal reads. -/
theorem acceptable_external (o : SetOrder) (strongSession : Bool) :
    Acceptable o (lines.map LogTxn.external) strongSession ↔ Acceptable o lines strongSession := by
  have hA : Appends (lines.map LogTxn.external) = Appends lines := by
    funext i k x
    exact propext (appends_external lines i k x)
  have hR : Reads (lines.map LogTxn.external) = Reads lines := by
    funext j k xs
    exact propext (reads_external lines j k xs)
  have hwrites : Writes (lines.map LogTxn.external) = Writes lines := by
    funext k i
    simp only [Writes, hA]
  have hfrom : ReadsFrom (lines.map LogTxn.external) = ReadsFrom lines := by
    funext k i j
    simp only [ReadsFrom, hA, hR]
  have hnext : Successor (lines.map LogTxn.external) = Successor lines := by
    funext k a b
    simp only [Successor, Observed, hwrites, hfrom, hA, hR]
  have hknown : Known (lines.map LogTxn.external)
      (parse o (lines.map LogTxn.external)).2 strongSession =
      Known lines (parse o lines).2 strongSession := by
    funext e
    refine propext ⟨fun h => ?_, fun h => ?_⟩
    · cases h with
      | session hs hc => exact .session hs ((consecutive_external lines o _ _).mp hc)
      | initial hi hn => exact .initial hi (by simpa using hn)
      | read hr => exact .read (hr.congr hA hR)
    · cases h with
      | session hs hc => exact .session hs ((consecutive_external lines o _ _).mpr hc)
      | initial hi hn => exact .initial hi (by simpa using hn)
      | read hr => exact .read (hr.congr hA.symm hR.symm)
  have hexplains : (∃ _ : LinearOrder Event, Explains (lines.map LogTxn.external)
        (parse o (lines.map LogTxn.external)).2 strongSession) ↔
      ∃ _ : LinearOrder Event, Explains lines (parse o lines).2 strongSession := by
    simp only [explains_iff, Overwritten, hknown, hwrites, hfrom, hnext, List.length_map]
  simp only [acceptable_iff, Sourced, OneAppender, hexplains, hnext, hA, hR]

/-- Two logs with the same external operations are both acceptable, or neither is. -/
theorem acceptable_congr {lines lines' : List (LogTxn κ ν)}
    (h : lines'.map LogTxn.external = lines.map LogTxn.external) (o : SetOrder)
    (strongSession : Bool) : Acceptable o lines' strongSession ↔
    Acceptable o lines strongSession := by
  rw [← acceptable_external lines', h, acceptable_external]

/-- A log in which a transaction reads `v` from `k` behind the operations `pre`. -/
def readingAt (before after : List (LogTxn κ ν)) (process : Nat) (pre post : List (LogMop κ ν))
    (k : κ) (v : Option (List ν)) : List (LogTxn κ ν) :=
  before ++ ⟨process, pre ++ .r k v :: post⟩ :: after

/-- No read of the log stands behind another operation on its key. -/
def NoInternalReads (lines : List (LogTxn κ ν)) : Prop :=
  ∀ before after process pre post k v, lines = readingAt before after process pre post k v →
    ∀ m ∈ pre, m.key ≠ k

theorem NoInternalReads.consistent {lines : List (LogTxn κ ν)} (h : NoInternalReads lines) :
    Consistent lines := by
  intro line hline pre k v post he
  obtain ⟨before, after, rfl⟩ := List.append_of_mem hline
  have hpre : ∀ m ∈ pre, m.key ≠ k :=
    h before after line.process pre post k v (by rw [readingAt, ← he])
  constructor
  · rintro pre₁ u pre₂ rfl
    exact absurd rfl (hpre (.r k u) (List.mem_append_right _ List.mem_cons_self))
  · intro _
    have hnone : appendsTo k pre = [] :=
      List.eq_nil_iff_forall_not_mem.mpr (fun x hx => hpre _ ((mem_appendsTo k pre x).mp hx) rfl)
    rw [hnone]
    exact List.nil_suffix

/-- The answer of a read behind another operation on its key leaves no trace. -/
theorem external_read (seen : List κ) (pre post : List (LogMop κ ν)) (k : κ)
    (v v' : Option (List ν)) (h : k ∈ seen ∨ ∃ m ∈ pre, m.key = k) :
    external seen (pre ++ .r k v :: post) = external seen (pre ++ .r k v' :: post) := by
  induction pre generalizing seen with
  | nil =>
    have hs : k ∈ seen := h.resolve_right (by simp)
    simp [external, hs]
  | cons m pre ih =>
    have hcons : k ∈ m.key :: seen ∨ ∃ m ∈ pre, m.key = k := by
      rcases h with hs | ⟨m', hm, hk⟩
      · exact .inl (List.mem_cons_of_mem _ hs)
      · rcases List.mem_cons.mp hm with rfl | hm
        · exact .inl (hk ▸ List.mem_cons_self)
        · exact .inr ⟨m', hm, hk⟩
    cases m with
    | append k' x => simp only [List.cons_append, external, ih (k' :: seen) hcons]
    | r k' u =>
      simp only [List.cons_append, external]
      split
      · rename_i hs
        refine ih seen (hcons.imp_left (fun hk => ?_))
        rcases List.mem_cons.mp hk with rfl | hk
        · exact List.contains_iff_mem.mp hs
        · exact hk
      · rw [ih (k' :: seen) hcons]

omit [LinearOrder κ] in
/-- The last of the earlier reads of a key. -/
theorem exists_last_read {pre : List (LogMop κ ν)} {k : κ} (h : ∃ w, .r k w ∈ pre) :
    ∃ pre₁ u pre₂, pre = pre₁ ++ .r k u :: pre₂ ∧ ∀ w, .r k w ∉ pre₂ := by
  induction pre with
  | nil => simp at h
  | cons m pre ih =>
    by_cases hrest : ∃ w, .r k w ∈ pre
    · obtain ⟨pre₁, u, pre₂, rfl, hlast⟩ := ih hrest
      exact ⟨m :: pre₁, u, pre₂, rfl, hlast⟩
    · obtain ⟨w, hw⟩ := h
      rcases List.mem_cons.mp hw with rfl | hw
      · exact ⟨[], w, pre, rfl, fun w hw => hrest ⟨w, hw⟩⟩
      · exact absurd ⟨w, hw⟩ hrest

section Answers

variable {before after : List (LogTxn κ ν)} {process : Nat} {pre post : List (LogMop κ ν)} {k : κ}
  (h : ∃ m ∈ pre, m.key = k)
include h

theorem accepted_readingAt [DecidableEq ν] [ToString κ] (o : SetOrder) (strongSession : Bool)
    (v v' : Option (List ν)) :
    Accepted o (readingAt before after process pre post k v') strongSession ↔
      Accepted o (readingAt before after process pre post k v) strongSession := by
  rw [accepted_iff, accepted_iff]
  refine acceptable_congr ?_ o strongSession
  simp only [readingAt, List.map_append, List.map_cons, LogTxn.external,
    external_read [] pre post k v' v (.inr h)]

/-- Some answer contradicts what the transaction has read and appended before. -/
theorem exists_inconsistent [Inhabited ν] :
    ∃ v, ¬ Consistent (readingAt before after process pre post k v) := by
  have hline : ∀ v, (⟨process, pre ++ .r k v :: post⟩ : LogTxn κ ν) ∈
      readingAt before after process pre post k v :=
    fun v => List.mem_append_right _ List.mem_cons_self
  by_cases hread : ∃ w, .r k w ∈ pre
  · obtain ⟨pre₁, u, pre₂, rfl, hlast⟩ := exists_last_read hread
    refine ⟨some (default :: (u.getD [] ++ appendsTo k pre₂)), fun hc => ?_⟩
    have heq := (hc _ (hline _) _ k _ post rfl).1 pre₁ u pre₂ rfl hlast
    exact absurd (congrArg List.length heq) (by simp)
  · refine ⟨none, fun hc => ?_⟩
    have hsuffix := (hc _ (hline _) _ k _ post rfl).2 (fun w hw => hread ⟨w, hw⟩)
    obtain ⟨m, hm, hk⟩ := h
    cases m with
    | r k' w =>
      obtain rfl : k' = k := hk
      exact hread ⟨w, hm⟩
    | append k' x =>
      obtain rfl : k' = k := hk
      have hx := (mem_appendsTo k' pre x).mpr hm
      rw [List.suffix_nil.mp hsuffix] at hx
      cases hx

end Answers

/-- Acceptance tells that a log is consistent where it has no reads behind other
operations on their keys, or where its external operations are refused. Every
such read of another log can be answered wrongly without a change of the verdict. -/
theorem accepted_consistent [DecidableEq ν] [Inhabited ν] [ToString κ] (o : SetOrder)
    (lines : List (LogTxn κ ν)) (strongSession : Bool) :
    ((NoInternalReads lines ∨ ¬ Acceptable o (lines.map LogTxn.external) strongSession) →
      Accepted o lines strongSession → Consistent lines) ∧
    ∀ before after process pre post k v, lines = readingAt before after process pre post k v →
      (∃ m ∈ pre, m.key = k) → ∃ v',
        (Accepted o (readingAt before after process pre post k v') strongSession ↔
          Accepted o lines strongSession) ∧
        ¬ Consistent (readingAt before after process pre post k v') := by
  constructor
  · rintro (hno | hrefused) haccepted
    · exact hno.consistent
    · rw [accepted_iff, ← acceptable_external] at haccepted
      exact absurd haccepted hrefused
  · rintro before after process pre post k v rfl hkey
    obtain ⟨v', hv'⟩ := @exists_inconsistent _ _ _ before after process pre post k hkey _
    exact ⟨v', accepted_readingAt hkey o strongSession v v', hv'⟩

/-- The transaction does not see its own append. -/
def forgetfulLog : List (LogTxn Nat Nat) := [⟨1, [.append 1 10, .r 1 none]⟩]

theorem forgetfulLog_accepted :
    Accepted .stored forgetfulLog false ∧ ¬ Consistent forgetfulLog := by
  refine ⟨accepted_of_along serialRank (by decide), fun h => ?_⟩
  have hsuffix := (h _ List.mem_cons_self [.append 1 10] 1 none [] rfl).2 (by simp)
  exact absurd hsuffix (by decide)

end Internal

end Append

end Viper
