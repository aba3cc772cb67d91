import Viper.AppendSpec

/-!
# The first faulty list of a log

The loop over the reads of a log goes through the lists in the order in which
they were read first. A list without a writer, or with a second successor of a
version, is rejected; one with an own read or an inner element without a writer
crashes the builder. The first of them decides.
-/
namespace Viper

open Py Chains

namespace Append

section Acts

variable {κ : Type} [LinearOrder κ]

/-- A verdict: another successor is known already, or the last element of a list
has no appender. -/
def Act.Rejects (past : List (Act κ)) : Act κ → Prop
  | .next k a b => ∃ b', b' ≠ b ∧ .next k a b' ∈ past
  | .raise e => ∃ msg, e = .reject msg
  | _ => False

/-- A failure that is no verdict: an edge from a transaction to itself, or an
inner element without an appender. -/
def Act.Crashes (n : Nat) : Act κ → Prop
  | .edge e => ¬ (Cmd.edge e).Valid n
  | .raise e => ∀ msg, e ≠ .reject msg
  | _ => False

/-- Some action is rejected, and none before it crashes. -/
def RejectsFirst (n : Nat) (past acts : List (Act κ)) : Prop :=
  ∃ pre x, pre ++ [x] <+: acts ∧ (∀ y ∈ pre, ¬ y.Crashes n) ∧ x.Rejects (past ++ pre)

/-- A state in which `past` has been carried out. -/
structure Past (n : Nat) (past : List (Act κ)) (st : KnownGraph κ) : Prop where
  nNodes : st.g.nNodes = n
  wwpairs : ∀ k a b, st.wwpairs.get? (k, a) = some b ↔ .next k a b ∈ past

omit [LinearOrder κ] in
theorem not_rejects_addEdge (G : ArgumentedPolyGraph κ) (src dst : Nat) (type : EdgeType) :
    ¬ Rejects (G.addEdge src dst type) := by
  refine not_rejects_bind (not_rejects_require _ _) (fun _ => ?_)
  refine not_rejects_bind (not_rejects_require _ _) (fun _ => ?_)
  refine not_rejects_bind (not_rejects_require _ _) (fun _ => ?_)
  split
  · simp [Rejects]
  · split
    · exact not_rejects_ok _
    · split <;> exact not_rejects_ok _

/-- One action is rejected, crashes, or joins the past. -/
theorem act_cases {n : Nat} {past : List (Act κ)} {st : KnownGraph κ}
    (h : Past n past st) (x : Act κ) (hfresh : ∀ k a b, x = .fresh k a → .next k a b ∉ past) :
    (x.Rejects past ∧ Rejects (act st x)) ∨
      (x.Crashes n ∧ ¬ x.Rejects past ∧ Crashes (act st x)) ∨
      (¬ x.Rejects past ∧ ¬ x.Crashes n ∧
        ∃ st', act st x = .ok st' ∧ Past n (past ++ [x]) st') := by
  cases x with
  | edge e =>
    by_cases hv : (Cmd.edge e).Valid n
    · obtain ⟨g, hg, hs⟩ := exec_spec (G := st.g) (c := .edge e) (h.nNodes ▸ hv)
      rw [exec] at hg
      have hok : act st (.edge e) = .ok { st with g := g } := by
        rw [act, KnownGraph.addEdge, hg, ok_bind]
      exact .inr (.inr ⟨id, fun hc => hc hv, _, hok, hs.nNodes.trans h.nNodes,
        fun k a b => by simp [h.wwpairs]⟩)
    · refine .inr (.inl ⟨hv, id, ?_, ?_⟩)
      · cases hg : st.g.addEdge e.src e.dst e.type with
        | error err => exact ⟨err, by rw [act, KnownGraph.addEdge, hg, error_bind]⟩
        | ok g =>
          obtain ⟨c, hc, hv'⟩ :=
            play_valid (S := [.ok (.edge e)]) (by simpa using hg) _ List.mem_cons_self
          cases hc
          exact absurd (h.nNodes ▸ hv') hv
      · exact not_rejects_bind (not_rejects_addEdge _ _ _ _) (fun _ => not_rejects_ok _)
  | reader k w r =>
    refine .inr (.inr ⟨id, id, _, rfl, h.nNodes, fun k a b => ?_⟩)
    simp [KnownGraph.addReader, h.wwpairs]
  | next k a b =>
    by_cases hd : ∃ b', b' ≠ b ∧ Act.next k a b' ∈ past
    · obtain ⟨b', hne, hb⟩ := hd
      refine .inl ⟨⟨b', hne, hb⟩, "versions diverge", ?_⟩
      rw [act, KnownGraph.addWwpairs, (h.wwpairs k a b').mpr hb]
      simp [hne]
    · have hsame : ∀ b', st.wwpairs.get? (k, a) = some b' → b' = b := by
        intro b' hb'
        by_contra hne
        exact hd ⟨b', hne, (h.wwpairs k a b').mp hb'⟩
      have hok : act st (.next k a b) = .ok _ := addWwpairs_eq_ok.mpr ⟨hsame, rfl⟩
      refine .inr (.inr ⟨hd, id, _, hok, h.nNodes, fun k' a' b' => ?_⟩)
      rw [(ran_of_act hok).next, h.wwpairs, List.mem_append]
  | fresh k a =>
    have hnone : st.wwpairs.get? (k, a) = none :=
      Option.eq_none_iff_forall_ne_some.mpr (fun b hb => hfresh k a b rfl ((h.wwpairs k a b).mp hb))
    refine .inr (.inr ⟨id, id, st, by simp [act, hnone, require], h.nNodes, fun k a b => ?_⟩)
    simp [h.wwpairs]
  | raise e =>
    by_cases he : ∃ msg, e = .reject msg
    · exact .inl ⟨he, he.imp fun msg hm => by rw [act, hm]⟩
    · refine .inr (.inl ⟨not_exists.mp he, he, ⟨e, rfl⟩, ?_⟩)
      rintro ⟨msg, hm⟩
      exact he ⟨msg, Except.error.inj hm⟩

omit [LinearOrder κ] in
theorem rejectsFirst_cons (n : Nat) (past : List (Act κ)) (x : Act κ) (acts : List (Act κ)) :
    RejectsFirst n past (x :: acts) ↔
      x.Rejects past ∨ (¬ x.Crashes n ∧ RejectsFirst n (past ++ [x]) acts) := by
  constructor
  · rintro ⟨pre, y, hpre, hs, hr⟩
    cases pre with
    | nil =>
      obtain ⟨rfl, -⟩ := List.cons_prefix_cons.mp hpre
      exact .inl (by simpa using hr)
    | cons x' pre =>
      rw [List.cons_append] at hpre
      obtain ⟨rfl, hpre'⟩ := List.cons_prefix_cons.mp hpre
      refine .inr ⟨hs _ List.mem_cons_self, pre, y, hpre', ?_, by simpa using hr⟩
      exact fun y hy => hs y (List.mem_cons_of_mem _ hy)
  · rintro (hr | ⟨hc, pre, y, hpre, hs, hr⟩)
    · exact ⟨[], x, by simp, by simp, by simpa using hr⟩
    · exact ⟨x :: pre, y, by simpa using hpre, List.forall_mem_cons.mpr ⟨hc, hs⟩, by simpa using hr⟩

/-- A run is rejected exactly when its first faulty action is. -/
theorem rejects_runActs_iff {n : Nat} (acts : List (Act κ)) {past : List (Act κ)}
    {st : KnownGraph κ} (h : Past n past st)
    (hfresh : ∀ k a b, .fresh k a ∈ acts → .next k a b ∉ past ++ acts) :
    Rejects (runActs st acts) ↔ RejectsFirst n past acts := by
  induction acts generalizing past st with
  | nil => simp [Rejects, RejectsFirst]
  | cons x acts ih =>
    rw [runActs_cons, rejectsFirst_cons]
    have hx : ∀ k a b, x = .fresh k a → .next k a b ∉ past := fun k a b he hm =>
      hfresh k a b (he ▸ List.mem_cons_self) (List.mem_append_left _ hm)
    rcases act_cases h x hx with ⟨hr, msg, he⟩ | ⟨hc, hr, ⟨e, he⟩, hno⟩ | ⟨hr, hc, st', hok, h'⟩
    · rw [he, error_bind]
      exact iff_of_true ⟨msg, rfl⟩ (.inl hr)
    · rw [he] at hno
      rw [he, error_bind]
      refine iff_of_false (fun hrej => hno ?_) (by simp [hr, hc])
      obtain ⟨msg, hm⟩ := hrej
      exact ⟨msg, by rw [Except.error.inj hm]⟩
    · rw [hok, ok_bind, ih h' (fun k a b hf => ?_)]
      · simp [hr, hc]
      · rw [List.append_assoc]
        exact hfresh k a b (List.mem_cons_of_mem x hf)

omit [LinearOrder κ] in
/-- Of two successors of one version, the second one is rejected. -/
theorem rejects_of_diverge {acts : List (Act κ)} {k : κ} {a b b' : Nat} (hne : b ≠ b')
    (hb : .next k a b ∈ acts) (hb' : .next k a b' ∈ acts) :
    ∃ pre x, pre ++ [x] <+: acts ∧ x.Rejects pre := by
  obtain ⟨l₁, l₂, rfl⟩ := List.append_of_mem hb
  rcases List.mem_append.mp hb' with h | h
  · exact ⟨l₁, .next k a b, ⟨l₂, by simp⟩, b', hne.symm, h⟩
  · have hl₂ : .next k a b' ∈ l₂ := by
      rcases List.mem_cons.mp h with he | h
      · cases he
        exact absurd rfl hne
      · exact h
    obtain ⟨l₃, l₄, rfl⟩ := List.append_of_mem hl₂
    exact ⟨l₁ ++ .next k a b :: l₃, .next k a b', ⟨l₄, by simp⟩, b, hne, by simp⟩

end Acts

section Logs

variable {κ ν : Type} [LinearOrder κ] [DecidableEq ν]

/-- A list whose last element nobody appended, or several transactions did. -/
def Unsourced (lines : List (LogTxn κ ν)) (k : κ) (xs : List ν) : Prop :=
  ∃ z, xs.getLast? = some z ∧ ¬ OneAppender lines k z

/-- A transaction reads the list and has appended its last element. -/
def OwnRead (lines : List (LogTxn κ ν)) (k : κ) (xs : List ν) : Prop :=
  ∃ j z, Reads lines j k xs ∧ xs.getLast? = some z ∧ Appends lines j k z

/-- A list whose writer is found, with an own read or an inner element without
one appender. -/
def Crashing (lines : List (LogTxn κ ν)) (k : κ) (xs : List ν) : Prop :=
  ¬ Unsourced lines k xs ∧ (OwnRead lines k xs ∨ ∃ x ∈ xs, ¬ OneAppender lines k x)

/-- A list `xs` of key `k` shows that `b` follows `a`: `b` has read the version of
`a` and appends to the key, or both have appended neighbours in the part `ys`. -/
def Shows (lines : List (LogTxn κ ν)) (k : κ) (xs ys : List ν) (a b : Nat) : Prop :=
  (∃ z, xs.getLast? = some z ∧ Appends lines a k z ∧ Reads lines b k xs ∧ Writes lines k b) ∨
    ∃ y y', Linked ys y y' ∧ Appends lines a k y ∧ Appends lines b k y' ∧ a ≠ b

/-- What the lists `seen` have shown, and `xs` up to its part `ys`. -/
def Shown (lines : List (LogTxn κ ν)) (seen : List (κ × List ν)) (k : κ) (xs ys : List ν)
    (a b : Nat) : Prop :=
  Shows lines k xs ys a b ∨ ∃ zs, (k, zs) ∈ seen ∧ Shows lines k zs zs a b

/-- After the lists `seen`, the readers of `xs` or the first neighbours in it
show a second successor of a version. -/
def Diverging (lines : List (LogTxn κ ν)) (seen : List (κ × List ν)) (k : κ) (xs : List ν) : Prop :=
  ¬ OwnRead lines k xs ∧ ∃ ys, ys <+: xs ∧ (∀ y ∈ ys, OneAppender lines k y) ∧
    ∃ a b b', b ≠ b' ∧ Shown lines seen k xs ys a b ∧ Shown lines seen k xs ys a b'

/-- Of the lists that are read, one has no writer or shows a second successor,
and none before it crashes the builder. -/
def FirstRejected (lines : List (LogTxn κ ν)) : Prop :=
  ∃ seen k xs, seen ++ [(k, xs)] <+: listsRead lines ∧ (∀ p ∈ seen, ¬ Crashing lines p.1 p.2) ∧
    (Unsourced lines k xs ∨ Diverging lines seen k xs)

section Parts

variable {o : SetOrder} {lines : List (LogTxn κ ν)} {X : Index κ (ListValue ν)}
  (hX : IndexOf X (fun i k v => ∃ x, v = .elem x ∧ Appends lines i k x)) {k : κ} {xs ys : List ν}
  {l : List Nat} (hl : ∀ j, j ∈ l ↔ Reads lines j k xs) {z : ν}
  (hz : xs.getLast? = some z) {a : Nat} (ha : ∀ i, Appends lines i k z ↔ i = a)
include hX hl hz ha

/-- The actions of a list tell which successors it shows. -/
theorem next_mem_shownActs (hys : ∀ y ∈ ys, OneAppender lines k y) (k' : κ) (b c : Nat) :
    .next k' b c ∈ shownActs o X k a l ys ↔ k' = k ∧ Shows lines k xs ys b c := by
  rw [mem_shownActs hX hys, Shows]
  constructor
  · rintro (⟨r, hr, he | he | ⟨hw, he⟩⟩ | ⟨y, y', b, c, hlk, hb, hc, hne, he⟩)
    · cases he
    · cases he
    · cases he
      exact ⟨rfl, .inl ⟨z, hz, (ha _).mpr rfl, (hl _).mp hr, hw⟩⟩
    · cases he
      exact ⟨rfl, .inr ⟨y, y', hlk, hb, hc, hne⟩⟩
  · rintro ⟨rfl, ⟨z', hz', hb, hr, hw⟩ | ⟨y, y', hlk, hb, hc, hne⟩⟩
    · cases hz.symm.trans hz'
      obtain rfl := (ha b).mp hb
      exact .inl ⟨c, (hl c).mpr hr, .inr (.inr ⟨hw, rfl⟩)⟩
    · exact .inr ⟨y, y', b, c, hlk, hb, hc, hne, rfl⟩

theorem shownActs_smooth (hown : ¬ OwnRead lines k xs) (hys : ∀ y ∈ ys, OneAppender lines k y) :
    ∀ x ∈ shownActs o X k a l ys, ¬ x.Crashes (lines.length + 1) := by
  intro x hx
  rcases (mem_shownActs hX hys a l x).mp hx
    with ⟨r, hr, rfl | rfl | ⟨_, rfl⟩⟩ | ⟨_, _, _, _, _, _, _, _, rfl⟩
  · have hread := (hl r).mp hr
    have hwrite : Appends lines a k z := (ha a).mpr rfl
    refine not_not.mpr
      ⟨fun he => hown ⟨r, z, hread, hz, ?_⟩, Nat.pos_iff_ne_zero.mp (lt_of_reads hread).1,
      Nat.lt_succ_of_le hwrite.lt.2⟩
    obtain rfl : a = r := he
    exact hwrite
  · exact id
  · exact id
  · exact id

omit hX [DecidableEq ν] in
/-- The edges to the readers only complete where nobody reads its own version. -/
theorem not_ownRead_of_smooth
    (hs : ∀ x ∈ edgeActs [a] (o.iter l) .wr, ¬ x.Crashes (κ := κ) (lines.length + 1)) :
    ¬ OwnRead lines k xs := by
  rintro ⟨j, z', hr, hz', hj⟩
  cases hz.symm.trans hz'
  obtain rfl := (ha j).mp hj
  refine hs (.edge ⟨j, j, .wr⟩) ?_ (fun hv => hv.1 rfl)
  exact (mem_edgeActs _ _ _ _).mpr
    ⟨j, List.mem_singleton_self j, j, (SetOrder.mem_iter o l j).mpr ((hl j).mpr hr), rfl⟩

omit hX hl [LinearOrder κ] [DecidableEq ν] in
theorem not_unsourced : ¬ Unsourced lines k xs := by
  rintro ⟨z', hz', hno⟩
  cases hz.symm.trans hz'
  exact hno ⟨a, ha⟩

omit hz ha in
theorem missedListActs_smooth :
    ∀ x ∈ missedListActs o (parse o lines).1 X k xs a l, ¬ x.Crashes (lines.length + 1) := by
  intro x hx
  obtain ⟨r, hr, w, y, hy, _, hne, _, rfl⟩ := (mem_missedListActs hX k _ a l x).mp hx
  exact not_not.mpr ⟨Ne.symm hne, Nat.pos_iff_ne_zero.mp hy.lt.1,
    Nat.lt_succ_of_le (lt_of_reads ((hl r).mp hr)).2⟩

/-- A list whose writer is found is gone through without a crash exactly when nobody
reads its own version and all elements have one appender. -/
theorem smooth_sourced_iff :
    (∀ x ∈ shownActs o X k a l xs ++ missedListActs o (parse o lines).1 X k xs a l,
      ¬ x.Crashes (lines.length + 1)) ↔ ¬ Crashing lines k xs := by
  constructor
  · rintro hs ⟨_, hown | ⟨x, hx, hno⟩⟩
    · exact not_ownRead_of_smooth hl hz ha
        (fun x hx => hs x (List.mem_append_left _ (List.mem_append_left _ hx))) hown
    · rcases last_or_linked hx with hlast | ⟨y, hlk⟩
      · cases hz.symm.trans hlast
        exact hno ⟨a, ha⟩
      · have hraise : .raise (.assertion "") ∈ neighbourActs o X k (x, y) := by
          rw [neighbourActs_unsourced hX (fun hq => hno hq.1)]
          exact List.mem_cons_self
        refine hs (.raise (.assertion "")) (List.mem_append_left _ ?_) (fun msg => by simp)
        refine List.mem_append_right _ (List.mem_append_right _ ?_)
        exact List.mem_flatMap.mpr ⟨(x, y), (mem_zip_tail _ x y).mpr hlk, hraise⟩
  · intro hno x hx
    rw [Crashing, not_and, not_or, not_exists] at hno
    obtain ⟨hown, hall⟩ := hno (not_unsourced hz ha)
    have hone : ∀ y ∈ xs, OneAppender lines k y := by
      intro y hy
      by_contra hn
      exact hall y ⟨hy, hn⟩
    rcases List.mem_append.mp hx with hx | hx
    · exact shownActs_smooth hX hl hz ha hown hone x hx
    · exact missedListActs_smooth hX hl x hx

omit hl hz ha in
/-- The elements of the neighbours that were gone through have one appender each. -/
theorem oneAppender_of_neighbours {qs : List (ν × ν)} {q : ν × ν}
    (hzip : ys.zip ys.tail = qs ++ [q])
    (hs : ∀ x ∈ qs.flatMap (neighbourActs o X k), ¬ x.Crashes (lines.length + 1))
    (hq : ∀ e, neighbourActs o X k q ≠ [.raise e]) : ∀ y ∈ ys, OneAppender lines k y := by
  have hpairs : ∀ q' ∈ ys.zip ys.tail, OneAppender lines k q'.1 ∧ OneAppender lines k q'.2 := by
    intro q' hq'
    by_contra hno
    have hraise := neighbourActs_unsourced (o := o) hX hno
    rw [hzip, List.mem_append, List.mem_singleton] at hq'
    rcases hq' with hq' | rfl
    · refine hs (.raise (.assertion "")) ?_ (fun msg => by simp)
      exact List.mem_flatMap.mpr ⟨q', hq', hraise ▸ List.mem_cons_self⟩
    · exact hq _ hraise
  intro y hy
  obtain ⟨q', hq', rfl | rfl⟩ := mem_zip_of_mem hy (by simp [hzip])
  · exact (hpairs q' hq').1
  · exact (hpairs q' hq').2

/-- Where a successor is reached among the actions of a list, a part of the list has
all actions up to there. -/
theorem part_of_reached {pre : List (Act κ)} {k₀ : κ} {b₀ c₀ : Nat}
    (h : pre ++ [.next k₀ b₀ c₀] <+: shownActs o X k a l xs)
    (hs : ∀ x ∈ pre, ¬ x.Crashes (lines.length + 1)) :
    ¬ OwnRead lines k xs ∧ ∃ ys, ys <+: xs ∧ (∀ y ∈ ys, OneAppender lines k y) ∧
      ∀ x ∈ pre ++ [.next k₀ b₀ c₀], x ∈ shownActs o X k a l ys := by
  have hlast : ∀ p : List (Act κ), .next k₀ b₀ c₀ ∈ p ++ [.next k₀ b₀ c₀] :=
    fun p => List.mem_append_right p List.mem_cons_self
  rcases concat_prefix_append h with hedge | ⟨pre₁, rfl, hrest⟩
  · obtain ⟨_, _, _, _, he⟩ := (mem_edgeActs _ _ _ _).mp (hedge.subset (hlast pre))
    cases he
  refine ⟨not_ownRead_of_smooth hl hz ha (fun x hx => hs x (List.mem_append_left _ hx)), ?_⟩
  rcases concat_prefix_append hrest with hreader | ⟨pre₂, rfl, hneighbour⟩
  · refine ⟨[], List.nil_prefix, by simp, fun x hx => ?_⟩
    rw [List.append_assoc, List.mem_append] at hx
    rw [shownActs]
    refine List.mem_append.mpr (hx.imp_right (fun hx => ?_))
    exact List.mem_append_left _ (hreader.subset hx)
  · obtain ⟨qs, q, pre₃, hqs, hq, rfl⟩ := concat_prefix_flatMap hneighbour
    obtain ⟨ys, hys, hzip⟩ := prefix_zip_tail hqs
    have hone : ∀ y ∈ ys, OneAppender lines k y := by
      refine oneAppender_of_neighbours (o := o) hX hzip (fun x hx => hs x ?_) (fun e he => ?_)
      · exact List.mem_append_right _ (List.mem_append_right _ (List.mem_append_left _ hx))
      · rw [he] at hq
        cases List.mem_singleton.mp (hq.subset (hlast pre₃))
    refine ⟨ys, hys, hone, fun x hx => ?_⟩
    simp only [List.append_assoc, List.mem_append (s := edgeActs _ _ _)] at hx
    rw [shownActs, hzip, List.flatMap_append, List.flatMap_singleton]
    refine List.mem_append.mpr (hx.imp_right (fun hx => ?_))
    refine List.mem_append.mpr ((List.mem_append.mp hx).imp_right (fun hx => ?_))
    exact List.mem_append.mpr ((List.mem_append.mp hx).imp_right (fun hx => hq.subset hx))

end Parts

omit [DecidableEq ν] in
theorem sourced_of_not_crashing {lines : List (LogTxn κ ν)} {k : κ} {xs : List ν}
    (hc : ¬ Crashing lines k xs) (hs : ¬ Unsourced lines k xs) :
    ∀ x ∈ xs, OneAppender lines k x := by
  intro x hx
  by_contra hn
  exact hc ⟨hs, .inr ⟨x, hx, hn⟩⟩

section Blocks

variable {o : SetOrder} {lines : List (LogTxn κ ν)} {X : Index κ (ListValue ν)}
  (hX : IndexOf X (fun i k v => ∃ x, v = .elem x ∧ Appends lines i k x))
include hX

/-- The actions of a list are told by its last element. -/
theorem readActs_form (k : κ) (xs : List ν) (l : List Nat) :
    (xs = [] ∧ readActs o (parse o lines).1 X k (readValue xs, l) = nilActs o X k l) ∨
      (Unsourced lines k xs ∧ ∃ msg,
        readActs o (parse o lines).1 X k (readValue xs, l) = [.raise (.reject msg)]) ∨
      ∃ z a, xs.getLast? = some z ∧ (∀ i, Appends lines i k z ↔ i = a) ∧
        readActs o (parse o lines).1 X k (readValue xs, l) =
          shownActs o X k a l xs ++ missedListActs o (parse o lines).1 X k xs a l := by
  cases xs with
  | nil => exact .inl ⟨rfl, rfl⟩
  | cons x xs =>
    obtain ⟨z, hz⟩ : ∃ z, (x :: xs).getLast? = some z :=
      ⟨_, List.getLast?_eq_some_getLast (List.cons_ne_nil x xs)⟩
    by_cases hone : OneAppender lines k z
    · obtain ⟨a, ha⟩ := hone
      exact .inr (.inr ⟨z, a, hz, ha, listActs_sourced hX hz ha _ l⟩)
    · exact .inr (.inl ⟨⟨z, hz, hone⟩, _, listActs_unsourced hX hz hone _ l⟩)

theorem readActs_unsourced {k : κ} {xs : List ν} (h : Unsourced lines k xs) (l : List Nat) :
    ∃ msg, readActs o (parse o lines).1 X k (readValue xs, l) = [.raise (.reject msg)] := by
  rcases readActs_form hX k xs l with ⟨rfl, _⟩ | ⟨_, hraise⟩ | ⟨z, a, hz, ha, _⟩
  · obtain ⟨_, hz, _⟩ := h
    cases hz
  · exact hraise
  · exact absurd h (not_unsourced hz ha)

/-- What the actions of one list can be. -/
theorem readActs_cases {k : κ} {xs : List ν} {l : List Nat} {x : Act κ}
    (h : x ∈ readActs o (parse o lines).1 X k (readValue xs, l)) :
    (Unsourced lines k xs ∧ ∃ e, x = .raise e) ∨ x = .raise (.assertion "") ∨ (∃ e, x = .edge e) ∨
      (∃ w r, x = .reader k w r) ∨ (∃ b c, Writes lines k b ∧ x = .next k b c) ∨
      x = .fresh k 0 := by
  rcases readActs_form (o := o) hX k xs l with ⟨rfl, he⟩ | ⟨hun, _, he⟩ | ⟨z, a, hz, ha, he⟩
  · rw [he, mem_nilActs hX k l x] at h
    rcases h with ⟨r, _, rfl | rfl | ⟨w, _, _, rfl⟩⟩ | rfl
    · exact .inr (.inr (.inl ⟨_, rfl⟩))
    · exact .inr (.inr (.inr (.inl ⟨0, r, rfl⟩)))
    · exact .inr (.inr (.inl ⟨_, rfl⟩))
    · exact .inr (.inr (.inr (.inr (.inr rfl))))
  · rw [he] at h
    exact .inl ⟨hun, _, List.mem_singleton.mp h⟩
  · rw [he, List.mem_append, mem_missedListActs hX, shownActs, List.mem_append, List.mem_append,
      mem_edgeActs, List.mem_flatMap, List.mem_flatMap] at h
    rcases h with (⟨_, _, _, _, rfl⟩ | ⟨r, _, hr⟩ | ⟨q, _, hq⟩) | ⟨_, _, _, _, _, _, _, _, rfl⟩
    · exact .inr (.inr (.inl ⟨_, rfl⟩))
    · rcases List.mem_cons.mp hr with rfl | hr
      · exact .inr (.inr (.inr (.inl ⟨a, r, rfl⟩)))
      · split at hr
        · rw [List.mem_singleton.mp hr]
          exact .inr (.inr (.inr (.inr (.inl ⟨a, r, ⟨z, (ha a).mpr rfl⟩, rfl⟩))))
        · cases hr
    · by_cases hpair : OneAppender lines k q.1 ∧ OneAppender lines k q.2
      · obtain ⟨⟨b, hb⟩, c, hc⟩ := hpair
        rw [((mem_neighbourActs hX hb hc _).mp hq).2]
        exact .inr (.inr (.inr (.inr (.inl ⟨b, c, ⟨q.1, (hb b).mpr rfl⟩, rfl⟩))))
      · rw [neighbourActs_unsourced hX hpair] at hq
        exact .inr (.inl (List.mem_singleton.mp hq))
    · exact .inr (.inr (.inl ⟨_, rfl⟩))

variable {k : κ} {xs : List ν} {l : List Nat} (hl : ∀ j, j ∈ l ↔ Reads lines j k xs)
include hl

/-- A list is gone through without a crash exactly when it is not a crashing one. -/
theorem smooth_readActs_iff : (∀ x ∈ readActs o (parse o lines).1 X k (readValue xs, l),
    ¬ x.Crashes (lines.length + 1)) ↔ ¬ Crashing lines k xs := by
  rcases readActs_form (o := o) hX k xs l with ⟨rfl, he⟩ | ⟨hun, _, he⟩ | ⟨z, a, hz, ha, he⟩
  · refine iff_of_true (fun x hx => ?_) (by simp [Crashing, OwnRead])
    rw [he, mem_nilActs hX k l x] at hx
    rcases hx with ⟨r, hr, rfl | rfl | ⟨w, ⟨y, hy⟩, hne, rfl⟩⟩ | rfl
    · obtain ⟨hpos, _⟩ := lt_of_reads ((hl r).mp hr)
      exact not_not.mpr ⟨Nat.ne_of_lt hpos, Nat.pos_iff_ne_zero.mp hpos, Nat.succ_pos _⟩
    · exact id
    · exact not_not.mpr ⟨Ne.symm hne, Nat.pos_iff_ne_zero.mp hy.lt.1,
        Nat.lt_succ_of_le (lt_of_reads ((hl r).mp hr)).2⟩
    · exact id
  · refine iff_of_true (fun x hx => ?_) (fun hc => hc.1 hun)
    rw [he, List.mem_singleton] at hx
    subst hx
    exact fun hc => hc _ rfl
  · rw [he]
    exact smooth_sourced_iff hX hl hz ha

theorem next_mem_readActs (hc : ¬ Crashing lines k xs) {k' : κ} {b c : Nat}
    (h : .next k' b c ∈ readActs o (parse o lines).1 X k (readValue xs, l)) :
    k' = k ∧ Shows lines k xs xs b c := by
  rcases readActs_form (o := o) hX k xs l with ⟨rfl, he⟩ | ⟨_, _, he⟩ | ⟨z, a, hz, ha, he⟩
  · rw [he, mem_nilActs hX k l _] at h
    rcases h with ⟨_, _, he | he | ⟨_, _, _, he⟩⟩ | he <;> cases he
  · rw [he] at h
    cases List.mem_singleton.mp h
  · rw [he, List.mem_append, mem_missedListActs hX] at h
    rcases h with h | ⟨_, _, _, _, _, _, _, _, he⟩
    · have hone := sourced_of_not_crashing hc (not_unsourced hz ha)
      exact (next_mem_shownActs hX hl hz ha hone k' b c).mp h
    · cases he

omit hX hl [DecidableEq ν] in
theorem not_shows_nil {ys : List ν} (hys : ys <+: []) {b c : Nat} : ¬ Shows lines k [] ys b c := by
  obtain rfl := List.prefix_nil.mp hys
  rintro (⟨_, hz, _⟩ | ⟨_, _, ⟨l₁, l₂, he⟩, _⟩)
  · cases hz
  · simp at he

theorem Shows.mem_readActs (hc : ¬ Crashing lines k xs) (hs : ¬ Unsourced lines k xs) {b c : Nat}
    (h : Shows lines k xs xs b c) :
    .next k b c ∈ readActs o (parse o lines).1 X k (readValue xs, l) := by
  rcases readActs_form (o := o) hX k xs l with ⟨rfl, _⟩ | ⟨hun, _⟩ | ⟨z, a, hz, ha, he⟩
  · exact absurd h (not_shows_nil List.prefix_rfl)
  · exact absurd hun hs
  · have hone := sourced_of_not_crashing hc hs
    rw [he]
    exact List.mem_append_left _ ((next_mem_shownActs hX hl hz ha hone k b c).mpr ⟨rfl, h⟩)

/-- Where a successor of a list is reached, a part of the list shows it and the
earlier ones. -/
theorem shows_of_reached {pre : List (Act κ)} {k₀ : κ} {b₀ c₀ : Nat}
    (h : pre ++ [.next k₀ b₀ c₀] <+: readActs o (parse o lines).1 X k (readValue xs, l))
    (hs : ∀ x ∈ pre, ¬ x.Crashes (lines.length + 1)) :
    ¬ OwnRead lines k xs ∧ ∃ ys, ys <+: xs ∧ (∀ y ∈ ys, OneAppender lines k y) ∧
      ∀ k' b c, .next k' b c ∈ pre ++ [.next k₀ b₀ c₀] → k' = k ∧ Shows lines k xs ys b c := by
  have hlast : ∀ {p : List (Act κ)}, .next k₀ b₀ c₀ ∈ p ++ [.next k₀ b₀ c₀] :=
    List.mem_append_right _ List.mem_cons_self
  rcases readActs_form (o := o) hX k xs l with ⟨rfl, he⟩ | ⟨_, _, he⟩ | ⟨z, a, hz, ha, he⟩
  · have hnil := (mem_nilActs hX k l _).mp (he ▸ h.subset hlast)
    rcases hnil with ⟨_, _, he | he | ⟨_, _, _, he⟩⟩ | he <;> cases he
  · rw [he] at h
    cases List.mem_singleton.mp (h.subset hlast)
  · rw [he] at h
    rcases concat_prefix_append h with hshown | ⟨_, rfl, hmissed⟩
    · obtain ⟨hown, ys, hys, hone, hpart⟩ := part_of_reached hX hl hz ha hshown hs
      refine ⟨hown, ys, hys, hone, fun k' b c hm => ?_⟩
      exact (next_mem_shownActs hX hl hz ha hone k' b c).mp (hpart _ hm)
    · obtain ⟨_, _, _, _, _, _, _, _, he⟩ :=
        (mem_missedListActs hX k _ a l _).mp (hmissed.subset hlast)
      cases he

/-- Without an own read, the builder gets through every part of a list whose
elements have one appender each. -/
theorem exists_part (hs : ¬ Unsourced lines k xs) (hown : ¬ OwnRead lines k xs) {ys : List ν}
    (hys : ys <+: xs) (hone : ∀ y ∈ ys, OneAppender lines k y) :
    ∃ part, part <+: readActs o (parse o lines).1 X k (readValue xs, l) ∧
      (∀ x ∈ part, ¬ x.Crashes (lines.length + 1)) ∧
      ∀ b c, Shows lines k xs ys b c → .next k b c ∈ part := by
  rcases readActs_form (o := o) hX k xs l with ⟨rfl, _⟩ | ⟨hun, _⟩ | ⟨z, a, hz, ha, he⟩
  · exact ⟨[], List.nil_prefix, by simp, fun b c h => absurd h (not_shows_nil hys)⟩
  · exact absurd hun hs
  · refine ⟨shownActs o X k a l ys, ?_, shownActs_smooth hX hl hz ha hown hone, fun b c h =>
      (next_mem_shownActs hX hl hz ha hone k b c).mpr ⟨rfl, h⟩⟩
    rw [he]
    refine List.IsPrefix.trans ?_ (List.prefix_append _ _)
    simp only [shownActs, List.prefix_append_right_inj]
    exact (zip_tail_mono hys).flatMap _

end Blocks

/-- What the builder does with one of the lists that are read. -/
def actsOf (o : SetOrder) (lines : List (LogTxn κ ν)) (X R : Index κ (ListValue ν))
    (p : κ × List ν) : List (Act κ) :=
  readActs o (parse o lines).1 X p.1 (readValue p.2, getIn R p.1 (readValue p.2))

section Observations

variable {o : SetOrder} {lines : List (LogTxn κ ν)} {X R : Index κ (ListValue ν)}
  (hX : IndexOf X (fun i k v => ∃ x, v = .elem x ∧ Appends lines i k x))
  (hR : extIndex (parse o lines).1 extReadsFn = .ok R)
  (hRof : IndexOf R (fun j k v => ∃ xs, Reads lines j k xs ∧ v = readValue xs))
include hX hR hRof

omit hX hRof in
/-- The actions of the loop over the reads are those of the lists, in their order. -/
theorem allActs_eq : allActs o (parse o lines).1 X R = (listsRead lines).flatMap
    (actsOf o lines X R) :=
  flatMap_extReads hR (readActs o (parse o lines).1 X)

omit hRof in
/-- No version follows the initial one by itself, so the test for that passes. -/
theorem not_next_of_fresh {k : κ} {a b : Nat} (h : .fresh k a ∈ allActs o (parse o lines).1 X R) :
    .next k a b ∉ allActs o (parse o lines).1 X R := by
  rw [allActs_eq hR] at h ⊢
  intro hnext
  obtain ⟨p, _, hp⟩ := List.mem_flatMap.mp h
  obtain ⟨q, _, hq⟩ := List.mem_flatMap.mp hnext
  obtain rfl : a = 0 := by
    rcases readActs_cases hX hp with ⟨_, _, he⟩ | he | ⟨_, he⟩ | ⟨_, _, he⟩ | ⟨_, _, _, he⟩ | he <;>
      cases he
    rfl
  rcases readActs_cases hX hq with ⟨_, _, he⟩ | he | ⟨_, he⟩ | ⟨_, _, he⟩ | ⟨_, _, hw, he⟩ | he <;>
    cases he
  exact absurd hw.lt.1 (Nat.lt_irrefl 0)

omit hX hR in
theorem mem_readers_iff (p : κ × List ν) (j : Nat) :
    j ∈ getIn R p.1 (readValue p.2) ↔ Reads lines j p.1 p.2 := mem_getIn_reads hRof

/-- The first action that is rejected belongs to a list that is. -/
theorem firstRejected_of_rejectsFirst
    (h : RejectsFirst (lines.length + 1) [] (allActs o (parse o lines).1 X R)) :
    FirstRejected lines := by
  rw [allActs_eq hR] at h
  obtain ⟨pre, x, hpre, hs, hrej⟩ := h
  obtain ⟨seen, ⟨k, xs⟩, u, hseen, hu, rfl⟩ := concat_prefix_flatMap hpre
  have hcrash : ∀ p ∈ seen, ¬ Crashing lines p.1 p.2 := by
    intro p hp
    refine (smooth_readActs_iff (o := o) hX (mem_readers_iff hRof p)).mp (fun y hy => hs y ?_)
    exact List.mem_append_left _ (List.mem_flatMap.mpr ⟨p, hp, hy⟩)
  refine ⟨seen, k, xs, hseen, hcrash, ?_⟩
  cases x with
  | edge e => cases hrej
  | reader _ _ _ => cases hrej
  | fresh _ _ => cases hrej
  | raise e =>
    obtain ⟨msg, rfl⟩ := hrej
    have hx := hu.subset (List.mem_append_right _ List.mem_cons_self)
    rcases readActs_cases hX hx with ⟨hun, _⟩ | he | ⟨_, he⟩ | ⟨_, _, he⟩ | ⟨_, _, _, he⟩ | he
    · exact .inl hun
    all_goals cases he
  | next k' a b =>
    obtain ⟨hown, ys, hys, hone, hshow⟩ := shows_of_reached hX (mem_readers_iff hRof (k, xs)) hu
      (fun y hy => hs y (List.mem_append_right _ hy))
    obtain ⟨rfl, hb⟩ := hshow _ _ _ (List.mem_append_right _ List.mem_cons_self)
    obtain ⟨b', hne, hb'⟩ := hrej
    refine .inr ⟨hown, ys, hys, hone, a, b, b', hne.symm, .inl hb, ?_⟩
    rw [List.nil_append, List.mem_append, List.mem_flatMap] at hb'
    rcases hb' with ⟨p, hp, hb'⟩ | hb'
    · obtain ⟨rfl, hearlier⟩ := next_mem_readActs hX (mem_readers_iff hRof p) (hcrash p hp) hb'
      exact .inr ⟨p.2, hp, hearlier⟩
    · exact .inl (hshow _ _ _ (List.mem_append_left _ hb')).2

omit hR in
theorem smooth_lists {seen : List (κ × List ν)} (hcrash : ∀ p ∈ seen, ¬ Crashing lines p.1 p.2) :
    ∀ x ∈ seen.flatMap (actsOf o lines X R), ¬ x.Crashes (lines.length + 1) := by
  intro x hx
  obtain ⟨p, hp, hx⟩ := List.mem_flatMap.mp hx
  exact (smooth_readActs_iff hX (mem_readers_iff hRof p)).mpr (hcrash p hp) x hx

/-- A list without a writer is rejected, if none before it crashes. -/
theorem rejectsFirst_of_unsourced {seen : List (κ × List ν)} {p : κ × List ν}
    (hseen : seen ++ [p] <+: listsRead lines) (hcrash : ∀ p ∈ seen, ¬ Crashing lines p.1 p.2)
    (hun : Unsourced lines p.1 p.2) :
    RejectsFirst (lines.length + 1) [] (allActs o (parse o lines).1 X R) := by
  obtain ⟨msg, hraise⟩ := readActs_unsourced (o := o) hX hun (getIn R p.1 (readValue p.2))
  rw [allActs_eq hR]
  refine ⟨seen.flatMap (actsOf o lines X R), .raise (.reject msg), ?_,
    smooth_lists hX hRof hcrash, msg, rfl⟩
  exact prefix_flatMap hseen (by rw [actsOf, hraise])

/-- So is a list that shows a second successor. -/
theorem rejectsFirst_of_diverging {seen : List (κ × List ν)} {k : κ} {xs : List ν}
    (hseen : seen ++ [(k, xs)] <+: listsRead lines) (hcrash : ∀ p ∈ seen, ¬ Crashing lines p.1 p.2)
    (hun : ∀ p ∈ seen, ¬ Unsourced lines p.1 p.2) (hs : ¬ Unsourced lines k xs)
    (hdiv : Diverging lines seen k xs) :
    RejectsFirst (lines.length + 1) [] (allActs o (parse o lines).1 X R) := by
  obtain ⟨hown, ys, hys, hone, a, b, b', hne, hb, hb'⟩ := hdiv
  obtain ⟨part, hpart, hsmooth, hnext⟩ :=
    exists_part (o := o) hX (mem_readers_iff hRof (k, xs)) hs hown hys hone
  have hmem : ∀ c, Shown lines seen k xs ys a c →
      .next k a c ∈ seen.flatMap (actsOf o lines X R) ++ part := by
    rintro c (hc | ⟨zs, hzs, hc⟩)
    · exact List.mem_append_right _ (hnext a c hc)
    · refine List.mem_append_left _ (List.mem_flatMap.mpr ⟨(k, zs), hzs, ?_⟩)
      exact hc.mem_readActs hX (mem_readers_iff hRof (k, zs)) (hcrash _ hzs) (hun _ hzs)
  obtain ⟨pre, x, hpre, hrejects⟩ := rejects_of_diverge hne (hmem b hb) (hmem b' hb')
  rw [allActs_eq hR]
  refine ⟨pre, x, hpre.trans (prefix_flatMap hseen hpart), fun y hy => ?_, hrejects⟩
  rcases List.mem_append.mp (hpre.subset (List.mem_append_left _ hy)) with hy | hy
  · exact smooth_lists hX hRof hcrash y hy
  · exact hsmooth y hy

theorem rejectsFirst_iff :
    RejectsFirst (lines.length + 1) [] (allActs o (parse o lines).1 X R) ↔ FirstRejected lines := by
  refine ⟨firstRejected_of_rejectsFirst hX hR hRof, ?_⟩
  rintro ⟨seen, k, xs, hseen, hcrash, hrej⟩
  by_cases hs : Unsourced lines k xs
  · exact rejectsFirst_of_unsourced hX hR hRof hseen hcrash hs
  by_cases hearlier : ∃ p ∈ seen, Unsourced lines p.1 p.2
  · -- then the list without a writer is rejected before
    obtain ⟨p, hp, hun⟩ := hearlier
    obtain ⟨done, rest, rfl⟩ := List.append_of_mem hp
    refine rejectsFirst_of_unsourced hX hR hRof (List.IsPrefix.trans ?_ hseen)
      (fun q hq => hcrash q (List.mem_append_left _ hq)) hun
    simp
  · have hun : ∀ p ∈ seen, ¬ Unsourced lines p.1 p.2 := fun p hp hun => hearlier ⟨p, hp, hun⟩
    exact rejectsFirst_of_diverging hX hR hRof hseen hcrash hun hs (hrej.resolve_left hs)

end Observations

end Logs

end Append

end Viper
