import Viper.Scripts
import Viper.Algos
import Viper.BCOrder
import Viper.Lib.Versions

/-!
# What the plain builder builds

`construct_eq`: with its tables computed, the plain builder plays one script and
stores the writers of every key. The script is then read off as facts about the
history, and the order a checker looks for as a statement about events.
-/
namespace Viper

open Py

section Writers

variable {κ : Type}

namespace ArgumentedPolyGraph

abbrev withWrites (G : ArgumentedPolyGraph κ) (d : Dict κ (List Nat)) : ArgumentedPolyGraph κ :=
  { G with extKey2writes := d }

end ArgumentedPolyGraph

open ArgumentedPolyGraph

theorem exec_withWrites (G : ArgumentedPolyGraph κ) (d : Dict κ (List Nat)) (c : Cmd) :
    exec (G.withWrites d) c = (exec G c).map (fun G => G.withWrites d) := by
  cases c with
  | edge e =>
    simp only [exec, addEdge, withWrites, isValidNodeId]
    cases require true "" <;> cases require (decide (e.src ≠ e.dst)) "" <;>
      cases require (decide (e.dst ≠ 0)) "" <;> simp only [error_bind, ok_bind, Except.map]
    by_cases h₁ : G.nNodes ≤ e.src
    · rw [if_pos h₁, if_pos h₁]
    · rw [if_neg h₁, if_neg h₁]
      by_cases h₂ : e.type = .rw
      · rw [if_pos h₂, if_pos h₂]
        rfl
      · rw [if_neg h₂, if_neg h₂]
        by_cases h₃ : ((otherTypes e.type).any fun t => decide ((e.dst, t) ∈ G.edges e.src)) = true
        · rw [if_pos h₃, if_pos h₃]
        · rw [if_neg h₃, if_neg h₃]
          rfl
  | pair e f =>
    simp only [exec, addEdgePair, withWrites, isValidNodeId]
    cases require true "" <;> cases require (decide (e.src ≠ e.dst ∧ f.src ≠ f.dst)) "" <;>
      simp only [error_bind, ok_bind, Except.map]
    by_cases h : (e, f) ∈ G.edgePairs ∨ (f, e) ∈ G.edgePairs
    · rw [if_pos h, if_pos h]
    · rw [if_neg h, if_neg h]

/-- The writer table plays no part in a script. -/
theorem play_withWrites (G : ArgumentedPolyGraph κ) (d : Dict κ (List Nat)) (S : Script) :
    play (G.withWrites d) S = (play G S).map (fun G => G.withWrites d) := by
  induction S generalizing G with
  | nil => rfl
  | cons x S ih =>
    cases x with
    | error e => rfl
    | ok c =>
      rw [play_cons, play_cons, exec_withWrites]
      cases exec G c with
      | error e => rfl
      | ok G' => exact ih G'

variable [LinearOrder κ] {ν : Type} [DecidableEq ν]

def writersTable (o : SetOrder) (extWrites : Index κ ν) (d : Dict κ (List Nat)) :
    Dict κ (List Nat) :=
  extWrites.entries.foldl
    (fun d p => d.set p.1 (o.iter (p.2.entries.foldl (fun curr q => curr ∪ q.2) []))) d

theorem setAllWrites_eq (o : SetOrder) (G : ArgumentedPolyGraph κ) (extWrites : Index κ ν) :
    G.setAllWrites o extWrites = G.withWrites (writersTable o extWrites G.extKey2writes) := rfl

/-- The writers of every key, in some order. -/
structure WritersOf (d : Dict κ (List Nat)) (W : Nat → κ → ν → Prop) : Prop where
  nodup : ∀ {k l}, d.get? k = some l → l.Nodup
  mem : ∀ {k l}, d.get? k = some l → ∀ i, i ∈ l ↔ ∃ v, W i k v
  cover : ∀ {i k v}, W i k v → ∃ l, d.get? k = some l

theorem foldl_set_get? {α β γ : Type} [DecidableEq α] (f : α × β → γ) {l : List (α × β)}
    (hn : (l.map Prod.fst).Nodup) (d : Dict α γ) (a : α) :
    (l.foldl (fun d p => d.set p.1 (f p)) d).get? a =
      match findEntry a l with
      | some b => some (f (a, b))
      | none => d.get? a := by
  induction l generalizing d with
  | nil => rfl
  | cons p l ih =>
    obtain ⟨x, y⟩ := p
    rw [List.map_cons, List.nodup_cons] at hn
    rw [List.foldl_cons, ih hn.2]
    by_cases hx : x = a
    · subst hx
      have hnone : findEntry x l = none := by
        rw [Option.eq_none_iff_forall_ne_some]
        intro b hb
        exact hn.1 (List.mem_map.mpr ⟨(x, b), (findEntry_eq_some_iff l hn.2 x b).mp hb, rfl⟩)
      simp [findEntry, hnone]
    · rw [findEntry, if_neg hx, Dict.get?_set_other _ _ _ _ (Ne.symm hx)]

theorem writersOf_table {X : Index κ ν} {W : Nat → κ → ν → Prop} (hX : IndexOf X W) (o : SetOrder)
    {d : Dict κ (List Nat)} (hd : d = Dict.empty ∨ WritersOf d W) :
    WritersOf (writersTable o X d) W := by
  have hget : ∀ k, (writersTable o X d).get? k = match X.get? k with
      | some _ => some (o.iter (kWritesFn X k))
      | none => d.get? k := by
    intro k
    rw [writersTable, foldl_set_get? (fun p : κ × Dict ν (List Nat) =>
      o.iter (p.2.entries.foldl (fun curr q => curr ∪ q.2) [])) X.nodup d k, ← Dict.get?]
    cases hk : X.get? k with
    | none => rfl
    | some vs => simp only [kWritesFn, hk]
  have hold : ∀ k l, X.get? k = none → (writersTable o X d).get? k = some l →
      WritersOf d W ∧ d.get? k = some l := by
    intro k l hk hl
    rw [hget, hk] at hl
    rcases hd with rfl | hd
    · cases hl
    · exact ⟨hd, hl⟩
  have hnew : ∀ k vs l, X.get? k = some vs → (writersTable o X d).get? k = some l →
      l = o.iter (kWritesFn X k) := by
    intro k vs l hk hl
    rw [hget, hk] at hl
    exact (Option.some.inj hl).symm
  refine ⟨fun {k l} hl => ?_, fun {k l} hl i => ?_, fun {i k v} hw => ?_⟩
  · cases hk : X.get? k with
    | none =>
      obtain ⟨hw, hl'⟩ := hold k l hk hl
      exact hw.nodup hl'
    | some vs =>
      rw [hnew k vs l hk hl, SetOrder.nodup_iter]
      exact nodup_kWritesFn hX k
  · cases hk : X.get? k with
    | none =>
      obtain ⟨hw, hl'⟩ := hold k l hk hl
      exact hw.mem hl' i
    | some vs =>
      rw [hnew k vs l hk hl, SetOrder.mem_iter]
      exact mem_kWritesFn hX k i
  · have hm := (hX.mem i k v).mpr hw
    cases hk : X.get? k with
    | none => simp [getIn, Dict.get2?, hk] at hm
    | some vs => exact ⟨_, by rw [hget, hk]⟩

/-- All pairs of a list without duplicates: two different members, in one order. -/
theorem mem_pairsOf {α : Type} {l : List α} (hn : l.Nodup) {a b : α} :
    (a, b) ∈ pairsOf l ∨ (b, a) ∈ pairsOf l ↔ a ∈ l ∧ b ∈ l ∧ a ≠ b := by
  induction l with
  | nil => simp [pairsOf]
  | cons x l ih =>
    obtain ⟨hx, hn'⟩ := List.nodup_cons.mp hn
    have hmem : ∀ a b, (a, b) ∈ pairsOf (x :: l) ↔ (a = x ∧ b ∈ l) ∨ (a, b) ∈ pairsOf l := by
      intro a b
      simp only [pairsOf, List.mem_append, List.mem_map, Prod.mk.injEq]
      refine or_congr ⟨?_, ?_⟩ Iff.rfl
      · rintro ⟨c, hc, rfl, rfl⟩
        exact ⟨rfl, hc⟩
      · rintro ⟨rfl, hb⟩
        exact ⟨b, hb, rfl, rfl⟩
    have ih := ih hn'
    rw [hmem, hmem]
    constructor
    · rintro ((⟨rfl, hb⟩ | h) | (⟨rfl, ha⟩ | h))
      · exact ⟨List.mem_cons_self, List.mem_cons_of_mem _ hb, fun he => hx (he ▸ hb)⟩
      · obtain ⟨h₁, h₂, h₃⟩ := ih.mp (.inl h)
        exact ⟨List.mem_cons_of_mem _ h₁, List.mem_cons_of_mem _ h₂, h₃⟩
      · exact ⟨List.mem_cons_of_mem _ ha, List.mem_cons_self, fun he => hx (he ▸ ha)⟩
      · obtain ⟨h₁, h₂, h₃⟩ := ih.mp (.inr h)
        exact ⟨List.mem_cons_of_mem _ h₁, List.mem_cons_of_mem _ h₂, h₃⟩
    · rintro ⟨ha, hb, hne⟩
      rcases List.mem_cons.mp ha with rfl | ha'
      · exact .inl (.inl ⟨rfl, (List.mem_cons.mp hb).resolve_left (Ne.symm hne)⟩)
      · rcases List.mem_cons.mp hb with rfl | hb'
        · exact .inr (.inl ⟨rfl, ha'⟩)
        · exact (ih.mpr ⟨ha', hb', hne⟩).imp .inr .inr

omit [DecidableEq ν] in
/-- The double loop over the writers of a key meets every two of them once. -/
theorem WritersOf.pairs {d : Dict κ (List Nat)} {W : Nat → κ → ν → Prop} (h : WritersOf d W)
    (i j : Nat) :
    (i, j) ∈ writerPairs (some d) ∨ (j, i) ∈ writerPairs (some d) ↔
      i ≠ j ∧ ∃ k v v', W i k v ∧ W j k v' := by
  simp only [writerPairs, List.mem_flatMap, Prod.exists, Dict.mem_entries]
  constructor
  · intro hp
    obtain ⟨k, l, hl, hm⟩ :
        ∃ k l, d.get? k = some l ∧ ((i, j) ∈ pairsOf l ∨ (j, i) ∈ pairsOf l) := by
      rcases hp with ⟨k, l, hl, hm⟩ | ⟨k, l, hl, hm⟩
      · exact ⟨k, l, hl, .inl hm⟩
      · exact ⟨k, l, hl, .inr hm⟩
    obtain ⟨hi, hj, hne⟩ := (mem_pairsOf (h.nodup hl)).mp hm
    obtain ⟨v, hv⟩ := (h.mem hl i).mp hi
    obtain ⟨v', hv'⟩ := (h.mem hl j).mp hj
    exact ⟨hne, k, v, v', hv, hv'⟩
  · rintro ⟨hne, k, v, v', hv, hv'⟩
    obtain ⟨l, hl⟩ := h.cover hv
    have hi := (h.mem hl i).mpr ⟨v, hv⟩
    have hj := (h.mem hl j).mpr ⟨v', hv'⟩
    exact ((mem_pairsOf (h.nodup hl)).mpr ⟨hi, hj, hne⟩).imp (fun hm => ⟨k, l, hl, hm⟩)
      (fun hm => ⟨k, l, hl, hm⟩)

end Writers

variable {κ : Type} [LinearOrder κ]

/-- Who externally writes a key, and who externally reads whose version. -/
def workload (H : List (Entry (Mop κ Value))) : Versions.Workload κ Nat where
  writes k i := ∃ v, Has extWritesFn H i k v
  readsFrom k i j := ∃ v, Has extWritesFn H i k v ∧ Has extReadsFn H j k v

/-- An order of the events that explains a history: T0 comes first, the known
edges hold and every reader sees the latest version of its snapshot. -/
structure Explained [LinearOrder Event] (H : List (Entry (Mop κ Value)))
    (known : Except Err Cmd → Prop) : Prop where
  begins : ∀ i, i < H.length → Event.s i < Event.c i
  first : ∀ i, 0 < i → i < H.length → Event.c 0 < Event.s i
  known : ∀ e, known (.ok (.edge e)) → e.Holds
  legal : Versions.Legal (workload H) Event.s Event.c

namespace AdyaSI

variable [ToString κ]

section Script

variable (o : SetOrder) (X : Index κ Value) (initial : Option (Dict κ Value))

def readScript (k : κ) (p : Value × List Nat) : Script :=
  match o.iter (getIn X k p.1) with
  | [] =>
    if fromInitial initial k p.1 then initialReadScript o X k p.2
    else if isNull p.1 then []
    else [.error (.reject s!"dirty read {k}: {p.1}")]
  | [Ti] => edgesScript [Ti] (o.iter p.2) .wr ++ (o.iter p.2).flatMap fun Tj =>
      (o.iter (TkSetFn X k [Ti, Tj])).map fun Tk => .ok (.pair ⟨Tk, Ti, .ww⟩ ⟨Tj, Tk, .rw⟩)
  | _ =>
    [.error (.assertion "There shouldn't be two txns writing the same value for the same key!")]

theorem addRead_eq (k : κ) (G : ArgumentedPolyGraph κ) (p : Value × List Nat) :
    addRead o X initial k G p = play G (readScript o X initial k p) := by
  rcases hw : o.iter (getIn X k p.1) with _ | ⟨Ti, _ | ⟨Tk, l⟩⟩ <;>
    simp only [addRead, readScript, hw]
  · split
    · exact addInitialReads_eq o X k p.2 G
    · split <;> rfl
  · rw [play_append, addEdges_eq_play]
    congr 1
    funext G
    apply foldlM_eq_play
    intro Tj _ G
    exact foldlM_eq_play_map (fun Tk => .pair ⟨Tk, Ti, .ww⟩ ⟨Tj, Tk, .rw⟩) (fun _ _ _ => rfl) G
  · rfl

def readsScript (R : Index κ Value) : Script :=
  R.entries.flatMap fun p => p.2.entries.flatMap (readScript o X initial p.1)

theorem addReads_eq (R : Index κ Value) (G : ArgumentedPolyGraph κ) :
    addReads o X R initial G = play G (readsScript o X initial R) := by
  apply foldlM_eq_play
  intro p _ G
  exact foldlM_eq_play (fun q _ G => addRead_eq o X initial p.1 G q) G

def writePairsScript (d : Dict κ (List Nat)) : Script :=
  (writerPairs (some d)).map fun q => .ok (.pair ⟨q.1, q.2, .ww⟩ ⟨q.2, q.1, .ww⟩)

omit [LinearOrder κ] [ToString κ] in
theorem addWritePairs_eq (G : ArgumentedPolyGraph κ) :
    addWritePairs G = play G (writePairsScript G.extKey2writes) := by
  rw [writePairsScript, writerPairs, List.map_flatMap]
  apply foldlM_eq_play
  intro p _ G
  exact foldlM_eq_play_map (fun q : Nat × Nat => .pair ⟨q.1, q.2, .ww⟩ ⟨q.2, q.1, .ww⟩)
    (fun _ _ _ => rfl) G

omit [ToString κ] in
theorem processFinalState_eq (Tf : Nat) (d : Dict κ Value) (G : ArgumentedPolyGraph κ) :
    processFinalState o X Tf d G = play G (finalStateScript o X Tf G.nNodes d) := by
  have hread : ∀ G : ArgumentedPolyGraph κ, d.entries.foldlM (finalRead o X Tf) G =
      play G (d.entries.flatMap (finalReadScript o X Tf)) := by
    intro G
    apply foldlM_eq_play
    intro p _ G
    rcases hw : o.iter (getIn X p.1 p.2) with _ | ⟨Ti, _ | ⟨Tk, l⟩⟩ <;>
      simp only [finalRead, finalReadScript, hw]
    · rw [play_cons]
      simp only [exec]
      congr 1
      funext G
      cases hT : (TkSetFn X p.1 [0, Tf]).isEmpty <;> simp [require]
    · rw [play_cons]
      simp only [exec]
      congr 1
      funext G
      exact foldlM_eq_play_map (fun Tk => .edge ⟨Tk, Ti, .ww⟩) (fun _ _ _ => rfl) G
    · rfl
  rw [processFinalState, finalStateScript, play_append, hread]
  cases hp : play G (d.entries.flatMap (finalReadScript o X Tf)) with
  | error e => rfl
  | ok G' =>
    rw [ok_bind, ok_bind, (play_played hp).nNodes]
    exact foldlM_eq_play_map (fun i => .edge ⟨i, Tf, .cb⟩) (fun _ _ _ => rfl) G'

omit [ToString κ] in
theorem addFinal_eq (H : List (Entry (Mop κ Value))) (G : ArgumentedPolyGraph κ)
    (hn : G.nNodes = H.length) :
    addFinal o H X G = play G (finalScript o H X) := by
  rw [addFinal, finalScript, finalDicts]
  cases hq : finalQuery H with
  | error e => rfl
  | ok q =>
    obtain ⟨rs, dead⟩ := q
    simp only [ok_bind]
    cases h₁ : convertRs2dict rs with
    | error e => rfl
    | ok d₁ =>
      simp only [ok_bind]
      cases h₂ : convertRs2dict dead with
      | error e => rfl
      | ok d₂ =>
        simp only [ok_bind, play_append]
        rw [processFinalState_eq, hn]
        cases hp : play G (finalStateScript o X (H.length - 1) H.length d₁) with
        | error e => rfl
        | ok G' =>
          rw [ok_bind, ok_bind, processFinalState_eq, (play_played hp).nNodes, hn]

omit [ToString κ] in
theorem addRangeQueries_eq (H : List (Entry (Mop κ Value))) (t : Tables κ)
    (G : ArgumentedPolyGraph κ) :
    addRangeQueries o H G t.upserts t.keys t.queries =
      play G (queriesScript o H t Prod.snd assertReturned) := by
  apply foldlM_eq_play
  intro q _ G
  rw [addRangeQuery]
  cases hm : mopAt H q.1 q.2 with
  | error e => rfl
  | ok mop =>
    rw [ok_bind]
    cases mop with
    | range k1 k2 rs dead fin =>
      simp only [queryScript]
      cases ha : assertReturned k1 k2 rs dead with
      | error e => rfl
      | ok u =>
        simp only [ok_bind, List.nil_append]
        exact foldlM_eq_play (fun k _ G => addOmittedKey_eq o t.upserts q.1 q.2 G k) G
    | r | w | i | d | append => rfl

/-- Everything the plain builder plays. -/
def script (H : List (Entry (Mop κ Value))) (histories : List (List (Entry (Mop κ Value))))
    (strongSession hasFinal : Bool) (t : Tables κ) : Script :=
  (if strongSession then sessionScript histories else []) ++ initialScript H.length ++
    readsScript o t.extWrites t.initial t.extReads ++
    writePairsScript (writersTable o t.extWrites Dict.empty) ++
    (if hasFinal then finalScript o H t.extWrites else []) ++
    queriesScript o H t Prod.snd assertReturned

variable {H : List (Entry (Mop κ Value))} {histories : List (List (Entry (Mop κ Value)))}
  {strongSession hasFinal : Bool} {t : Tables κ}

/-- The constraints of one value: other writers come before its writer, or after
its readers. -/
def readPairsScript (k : κ) (p : Value × List Nat) : Script :=
  match o.iter (getIn X k p.1) with
  | [Ti] => (o.iter p.2).flatMap fun Tj =>
      (o.iter (TkSetFn X k [Ti, Tj])).map fun Tk => .ok (.pair ⟨Tk, Ti, .ww⟩ ⟨Tj, Tk, .rw⟩)
  | _ => []

theorem readScript_eq (k : κ) (p : Value × List Nat) :
    readScript o X initial k p = knownReadScript o X initial k p ++ readPairsScript o X k p := by
  rcases hw : o.iter (getIn X k p.1) with _ | ⟨Ti, _ | ⟨Tk, l⟩⟩ <;>
    simp only [readScript, knownReadScript, readPairsScript, hw, List.append_nil]

/-- The writer table after the builder has stored it twice. -/
def finalWrites : Dict κ (List Nat) := writersTable o X (writersTable o X Dict.empty)

theorem construct_eq (ht : t.Of H) :
    constructGraphFromLog o H histories strongSession hasFinal =
      (play ((ArgumentedPolyGraph.init H.length).setSessionOrder histories)
        (script o H histories strongSession hasFinal t)).map
          (fun G => G.withWrites (finalWrites o t.extWrites)) := by
  have hfin : ∀ G : ArgumentedPolyGraph κ, G.nNodes = H.length →
      optionally hasFinal (addFinal o H t.extWrites) G =
        play G (if hasFinal = true then finalScript o H t.extWrites else []) := by
    intro G hn
    cases hasFinal with
    | false => rfl
    | true => exact addFinal_eq o t.extWrites H G hn
  simp only [constructGraphFromLog, ht.extWrites, ht.extReads, ht.initial, ht.upserts, ht.keys,
    ht.queries, ok_bind, optionally_sessionOrder_eq, script, play_append]
  cases h₁ : play ((ArgumentedPolyGraph.init H.length).setSessionOrder histories)
      (if strongSession = true then sessionScript histories else []) with
  | error e => rfl
  | ok G₁ =>
    have hp₁ := play_played h₁
    have hn₁ : G₁.nNodes = H.length := hp₁.nNodes
    simp only [ok_bind, addInitialOrder_eq, hn₁]
    cases h₂ : play G₁ (initialScript H.length) with
    | error e => rfl
    | ok G₂ =>
      have hp₂ := play_played h₂
      simp only [ok_bind, addReads_eq]
      cases h₃ : play G₂ (readsScript o t.extWrites t.initial t.extReads) with
      | error e => rfl
      | ok G₃ =>
        have hp₃ := play_played h₃
        have hw₃ : G₃.extKey2writes = Dict.empty := by rw [hp₃.writes, hp₂.writes, hp₁.writes]; rfl
        have hn₃ : G₃.nNodes = H.length := by rw [hp₃.nNodes, hp₂.nNodes, hn₁]
        simp only [ok_bind, setAllWrites_eq, addWritePairs_eq, hw₃, play_withWrites]
        cases h₄ : play G₃ (writePairsScript (writersTable o t.extWrites Dict.empty)) with
        | error e => rfl
        | ok G₄ =>
          have hn₄ : (G₄.withWrites (writersTable o t.extWrites Dict.empty)).nNodes = H.length := by
            rw [ArgumentedPolyGraph.withWrites, (play_played h₄).nNodes, hn₃]
          simp only [Except.map, ok_bind, hfin _ hn₄, play_withWrites]
          cases h₅ : play G₄ (if hasFinal = true then finalScript o H t.extWrites else []) with
          | error e => rfl
          | ok G₅ =>
            simp only [Except.map, ok_bind, addRangeQueries_eq, play_withWrites]
            cases h₆ : play G₅ (queriesScript o H t Prod.snd assertReturned) with
            | error e => rfl
            | ok G₆ => rfl

/-- Tables exist whenever the builder returns. -/
theorem tables_of_ok {G : ArgumentedPolyGraph κ}
    (h : constructGraphFromLog o H histories strongSession hasFinal = .ok G) :
    ∃ t : Tables κ, t.Of H := by
  simp only [constructGraphFromLog, bind_eq_ok] at h
  obtain ⟨_, _, X, hX, R, hR, init, hinit, _, _, _, _, _, _, ups, hups, K, hK, qs, hqs, _⟩ := h
  exact ⟨⟨X, R, init, ups, K, qs⟩, hX, hR, hinit, hups, hK, hqs⟩

/-- A returned graph is what the script has played, with the writers stored. -/
theorem played_of_ok (ht : t.Of H) {G : ArgumentedPolyGraph κ}
    (h : constructGraphFromLog o H histories strongSession hasFinal = .ok G) :
    ∃ G', play ((ArgumentedPolyGraph.init H.length).setSessionOrder histories)
        (script o H histories strongSession hasFinal t) = .ok G' ∧
        G = G'.withWrites (finalWrites o t.extWrites) := by
  rw [construct_eq o ht] at h
  cases hp : play ((ArgumentedPolyGraph.init H.length).setSessionOrder histories)
      (script o H histories strongSession hasFinal t) with
  | error e =>
    rw [hp] at h
    cases h
  | ok G' =>
    rw [hp] at h
    exact ⟨G', rfl, (Except.ok.inj h).symm⟩

end Script

section Outcome

variable {H : List (Entry (Mop κ Value))} {histories : List (List (Entry (Mop κ Value)))}
  {strongSession hasFinal : Bool} {t : Tables κ} {o : SetOrder}

/-- A reader, the writer it reads from, and another writer of the key. -/
def ReadPair (H : List (Entry (Mop κ Value))) (e f : Edge) : Prop :=
  ∃ i j x k v v', Has extWritesFn H i k v ∧ Has extReadsFn H j k v ∧ Has extWritesFn H x k v' ∧
    x ≠ i ∧ x ≠ j ∧
    e = ⟨x, i, .ww⟩ ∧ f = ⟨j, x, .rw⟩

/-- Two writers of a key. -/
def WritePair (H : List (Entry (Mop κ Value))) (e f : Edge) : Prop :=
  ∃ i j k v v', Has extWritesFn H i k v ∧ Has extWritesFn H j k v' ∧ i ≠ j ∧ e = ⟨i, j, .ww⟩ ∧
    f = ⟨j, i, .ww⟩

omit [ToString κ] in
theorem WritePair.symm {e f : Edge} (h : WritePair H e f) : WritePair H f e := by
  obtain ⟨i, j, k, v, v', hi, hj, hne, rfl, rfl⟩ := h
  exact ⟨j, i, k, v', v, hj, hi, Ne.symm hne, rfl, rfl⟩

def finOf (o : SetOrder) (H : List (Entry (Mop κ Value))) (hasFinal : Bool)
    (t : Tables κ) : Script :=
  if hasFinal then finalScript o H t.extWrites else []

omit [ToString κ] in
theorem mem_readPairs (ht : t.Of H)
    (hU : ∀ i i' j k v, Has extReadsFn H j k v → Has extWritesFn H i k v →
      Has extWritesFn H i' k v → i = i')
    (x : Except Err Cmd) :
    (∃ k v l, t.extReads.get2? k v = some l ∧ x ∈ readPairsScript o t.extWrites k (v, l)) ↔
      ∃ e f, ReadPair H e f ∧ x = .ok (.pair e f) := by
  have hX := extIndex_spec ht.extWrites
  constructor
  · rintro ⟨k, v, l, hl, hx⟩
    have hread : ∀ j ∈ l, Has extReadsFn H j k v :=
      fun j hj => (mem_readers ht j k v).mp ⟨l, hl, hj⟩
    rcases writers_cases hX o k v with ⟨he, _⟩ | ⟨i, he, hw⟩ | ⟨i, i', _, he, _⟩
    · simp [readPairsScript, he] at hx
    · simp only [readPairsScript, he, List.mem_flatMap, SetOrder.mem_iter, List.mem_map,
        mem_TkSetFn hX] at hx
      obtain ⟨j, hj, y, ⟨⟨v', hy⟩, hne⟩, rfl⟩ := hx
      simp only [List.mem_cons, List.not_mem_nil, or_false, not_or] at hne
      exact ⟨_, _, ⟨i, j, y, k, v, v', hw, hread j hj, hy, hne.1, hne.2, rfl, rfl⟩, rfl⟩
    · simp [readPairsScript, he] at hx
  · rintro ⟨e, f, ⟨i, j, y, k, v, v', hw, hr, hy, hyi, hyj, rfl, rfl⟩, rfl⟩
    obtain ⟨l, hl, hj⟩ := (mem_readers ht j k v).mpr hr
    refine ⟨k, v, l, hl, ?_⟩
    rcases writers_cases hX o k v with ⟨_, hno⟩ | ⟨i', he, hw'⟩ | ⟨i', i'', _, _, hne, hw', hw''⟩
    · exact absurd hw (hno i)
    · obtain rfl := hU i i' j k v hr hw hw'
      simp only [readPairsScript, he, List.mem_flatMap, SetOrder.mem_iter, List.mem_map,
        mem_TkSetFn hX]
      exact ⟨j, hj, y, ⟨⟨v', hy⟩, by simp [hyi, hyj]⟩, rfl⟩
    · exact absurd (hU i' i'' j k v hr hw' hw'') hne

/-- The script of the plain builder, read as facts about the history. -/
theorem mem_script (ht : t.Of H)
    (hU : ∀ i i' j k v, Has extReadsFn H j k v → Has extWritesFn H i k v →
      Has extWritesFn H i' k v → i = i')
    (hpre : ∀ q m k1 k2 rs dead, RangeAt H q m k1 k2 rs dead →
      assertReturned k1 k2 rs dead = .ok ())
    (x : Except Err Cmd) : x ∈ script o H histories strongSession hasFinal t ↔
      KnownStep H histories strongSession t.initial Prod.snd (finOf o H hasFinal t) x ∨
        (∃ e f, ReadPair H e f ∧ x = .ok (.pair e f)) ∨
        ∃ q ∈ writerPairs (some (writersTable o t.extWrites Dict.empty)),
          x = .ok (.pair ⟨q.1, q.2, .ww⟩ ⟨q.2, q.1, .ww⟩) := by
  have hreads : x ∈ readsScript o t.extWrites t.initial t.extReads ↔ x ∈ knownReadsScript o t ∨
      ∃ e f, ReadPair H e f ∧ x = .ok (.pair e f) := by
    rw [← mem_readPairs (o := o) ht hU, mem_knownReadsScript, readsScript]
    simp only [List.mem_flatMap, Prod.exists, readScript_eq, List.mem_append, Dict.get2?_eq_some]
    constructor
    · rintro ⟨k, e, he, v, l, hl, hx | hx⟩
      · exact .inl ⟨k, v, l, ⟨e, he, hl⟩, hx⟩
      · exact .inr ⟨k, v, l, ⟨e, he, hl⟩, hx⟩
    · rintro (⟨k, v, l, ⟨e, he, hl⟩, hx⟩ | ⟨k, v, l, ⟨e, he, hl⟩, hx⟩)
      · exact ⟨k, e, he, v, l, hl, .inl hx⟩
      · exact ⟨k, e, he, v, l, hl, .inr hx⟩
  have hpairs : x ∈ writePairsScript (writersTable o t.extWrites Dict.empty) ↔
      ∃ q ∈ writerPairs (some (writersTable o t.extWrites Dict.empty)),
        x = .ok (.pair ⟨q.1, q.2, .ww⟩ ⟨q.2, q.1, .ww⟩) := by
    simp only [writePairsScript, List.mem_map, eq_comm]
  rw [← mem_known ht o hU hpre x, ← hpairs]
  simp only [script, finOf, List.mem_append, hreads, or_assoc, or_comm, or_left_comm]

omit [ToString κ] in
theorem pair_not_mem_finOf (e f : Edge) : .ok (.pair e f) ∉ finOf o H hasFinal t := by
  cases hasFinal with
  | false => simp [finOf]
  | true => exact pair_not_mem_finalScript o H t.extWrites e f

/-- What a returned graph holds. -/
structure Built (o : SetOrder) (H : List (Entry (Mop κ Value)))
    (histories : List (List (Entry (Mop κ Value))))
    (strongSession hasFinal : Bool) (t : Tables κ) (G : ArgumentedPolyGraph κ) : Prop where
  nNodes : G.nNodes = H.length
  inv : G.Inv
  before : ∀ a b, G.Before a b ↔ ∃ e, e.before = (a, b) ∧
    KnownStep H histories strongSession t.initial Prod.snd (finOf o H hasFinal t) (.ok (.edge e))
  pairs : ∀ e f, G.HasPair e f ↔ ReadPair H e f ∨ ReadPair H f e ∨ WritePair H e f
  writers : WritersOf G.extKey2writes (Has extWritesFn H)
  known : ∀ x, KnownStep H histories strongSession t.initial Prod.snd (finOf o H hasFinal t) x →
    ∃ c, x = .ok c ∧ c.Valid H.length
  unique : ∀ i i' j k v, Has extReadsFn H j k v → Has extWritesFn H i k v →
    Has extWritesFn H i' k v → i = i'

omit [ToString κ] in
theorem writersOf_tables (ht : t.Of H) (o : SetOrder) :
    WritersOf (writersTable o t.extWrites Dict.empty) (Has extWritesFn H) :=
  writersOf_table (extIndex_spec ht.extWrites) o (.inl rfl)

omit [ToString κ] in
theorem writePair_iff (ht : t.Of H) (o : SetOrder) (e f : Edge) :
    ((∃ q ∈ writerPairs (some (writersTable o t.extWrites Dict.empty)),
      e = ⟨q.1, q.2, .ww⟩ ∧ f = ⟨q.2, q.1, .ww⟩) ∨
        ∃ q ∈ writerPairs (some (writersTable o t.extWrites Dict.empty)),
        f = ⟨q.1, q.2, .ww⟩ ∧ e = ⟨q.2, q.1, .ww⟩) ↔
      WritePair H e f := by
  have hW := writersOf_tables ht o
  constructor
  · rintro (⟨q, hq, rfl, rfl⟩ | ⟨q, hq, rfl, rfl⟩)
    · obtain ⟨hne, k, v, v', hi, hj⟩ := (hW.pairs q.1 q.2).mp (.inl hq)
      exact ⟨q.1, q.2, k, v, v', hi, hj, hne, rfl, rfl⟩
    · obtain ⟨hne, k, v, v', hi, hj⟩ := (hW.pairs q.2 q.1).mp (.inr hq)
      exact ⟨q.2, q.1, k, v, v', hi, hj, hne, rfl, rfl⟩
  · rintro ⟨i, j, k, v, v', hi, hj, hne, rfl, rfl⟩
    exact ((hW.pairs i j).mpr ⟨hne, k, v, v', hi, hj⟩).imp (fun h => ⟨(i, j), h, rfl, rfl⟩)
      (fun h => ⟨(j, i), h, rfl, rfl⟩)

section Commands

variable (ht : t.Of H)
  (hU : ∀ i i' j k v, Has extReadsFn H j k v → Has extWritesFn H i k v →
    Has extWritesFn H i' k v → i = i')
  (hpre : ∀ q m k1 k2 rs dead, RangeAt H q m k1 k2 rs dead → assertReturned k1 k2 rs dead = .ok ())
include ht hU hpre

theorem edge_mem_script (e : Edge) : .ok (.edge e) ∈ script o H histories strongSession hasFinal t ↔
    KnownStep H histories strongSession t.initial Prod.snd (finOf o H hasFinal t)
      (.ok (.edge e)) := by
  rw [mem_script ht hU hpre]
  constructor
  · rintro (hk | ⟨_, _, _, h⟩ | ⟨_, _, h⟩)
    · exact hk
    · cases h
    · cases h
  · exact .inl

theorem pair_mem_script (e f : Edge) :
    .ok (.pair e f) ∈ script o H histories strongSession hasFinal t ↔
    ReadPair H e f ∨ ∃ q ∈ writerPairs (some (writersTable o t.extWrites Dict.empty)),
      e = ⟨q.1, q.2, .ww⟩ ∧ f = ⟨q.2, q.1, .ww⟩ := by
  rw [mem_script ht hU hpre]
  constructor
  · rintro (hk | ⟨e', f', hr, he⟩ | ⟨q, hq, he⟩)
    · exact absurd hk (KnownStep.not_pair pair_not_mem_finOf)
    · cases he
      exact .inl hr
    · cases he
      exact .inr ⟨q, hq, rfl, rfl⟩
  · rintro (hr | ⟨q, hq, rfl, rfl⟩)
    · exact .inr (.inl ⟨e, f, hr, rfl⟩)
    · exact .inr (.inr ⟨q, hq, rfl⟩)

end Commands

theorem knownReads_subset_reads {x : Except Err Cmd} (hx : x ∈ knownReadsScript o t) :
    x ∈ readsScript o t.extWrites t.initial t.extReads := by
  obtain ⟨k, v, l, hl, hx⟩ := (mem_knownReadsScript o x).mp hx
  obtain ⟨e, he, hl⟩ := Dict.get2?_eq_some.mp hl
  refine List.mem_flatMap.mpr ⟨(k, e), he, List.mem_flatMap.mpr ⟨(v, l), hl, ?_⟩⟩
  rw [readScript_eq]
  exact List.mem_append_left _ hx

theorem knownReads_subset_script {x : Except Err Cmd} (hx : x ∈ knownReadsScript o t) :
    x ∈ script o H histories strongSession hasFinal t := by
  simp only [script, List.mem_append]
  exact .inl (.inl (.inl (.inr (knownReads_subset_reads hx))))

theorem built_of_ok {G : ArgumentedPolyGraph κ}
    (h : constructGraphFromLog o H histories strongSession hasFinal = .ok G) :
    ∃ t, t.Of H ∧ Built o H histories strongSession hasFinal t G := by
  obtain ⟨t, ht⟩ := tables_of_ok o h
  obtain ⟨G', hp, rfl⟩ := played_of_ok o ht h
  have hvalid := play_valid hp
  have hplayed := play_played hp
  have hok : ∀ x ∈ script o H histories strongSession hasFinal t, ∃ c, x = .ok c :=
    fun x hx => (hvalid x hx).imp fun c hc => hc.1
  have hU := unique_of_known ht.extWrites ht.extReads (o := o)
    (fun x hx => hok x (knownReads_subset_script hx))
  have hpre := pre_of_queries ht (fun x (hx : x ∈ queriesScript o H t Prod.snd assertReturned) =>
    hok x (List.mem_append_right _ hx))
  have hinv := hplayed.inv ((ArgumentedPolyGraph.inv_init H.length).setSessionOrder histories)
  refine ⟨t, ht, hplayed.nNodes, ⟨hinv.src_lt, hinv.ne, hinv.dst_ne⟩, fun a b => ?_, fun e f => ?_,
    writersOf_table (extIndex_spec ht.extWrites) o (.inr (writersOf_tables ht o)),
    fun x hx => hvalid x ((mem_script ht hU hpre x).mpr (.inl hx)), hU⟩
  · refine (hplayed.before a b).trans ⟨?_, ?_⟩
    · rintro (⟨_, _, _, h, _⟩ | ⟨e, he, hb⟩)
      · cases h
      · exact ⟨e, hb, (edge_mem_script ht hU hpre e).mp he⟩
    · rintro ⟨e, hb, hk⟩
      exact .inr ⟨e, (edge_mem_script ht hU hpre e).mpr hk, hb⟩
  · have hnone : ¬ ((ArgumentedPolyGraph.init H.length).setSessionOrder histories :
        ArgumentedPolyGraph κ).HasPair e f := by
      rintro (h | h) <;> cases h
    refine (hplayed.pairs e f).trans ?_
    rw [pair_mem_script ht hU hpre, pair_mem_script ht hU hpre, ← writePair_iff ht o]
    simp only [hnone, false_or]
    exact or_or_or_comm.trans or_assoc

/-- The sessions are stored by their ids. -/
theorem histories_of_ok {G : ArgumentedPolyGraph κ}
    (h : constructGraphFromLog o H histories strongSession hasFinal = .ok G) :
    G.histories = histories.map (·.map Entry.id) := by
  obtain ⟨t, ht⟩ := tables_of_ok o h
  obtain ⟨G', hp, rfl⟩ := played_of_ok o ht h
  exact (play_played hp).histories

section Order

variable {G : ArgumentedPolyGraph κ} (hG : Built o H histories strongSession hasFinal t G)
include hG

theorem Built.known_iff [LinearOrder Event] : (∀ e ∈ G.edgeList o, e.Holds) ↔
    ∀ e, KnownStep H histories strongSession t.initial Prod.snd (finOf o H hasFinal t)
      (.ok (.edge e)) → e.Holds :=
  holds_edgeList_iff o hG.inv hG.before

theorem Built.ordered_iff [LinearOrder Event] :
    Ordered G.nNodes (G.edgeList o) (pairConstraints (o.iter G.edgePairs) (some G.extKey2writes)) ↔
      Explained H
        (KnownStep H histories strongSession t.initial Prod.snd (finOf o H hasFinal t)) := by
  constructor
  · intro h
    have hpair : ∀ e f, G.HasPair e f → e.Holds ∨ f.Holds := by
      rintro e f (hm | hm)
      · simpa using h.choice ([e], [f])
          (List.mem_append_left _ (List.mem_map.mpr ⟨(e, f), by simpa using hm, rfl⟩))
      · simpa [or_comm] using
          h.choice ([f], [e])
            (List.mem_append_left _ (List.mem_map.mpr ⟨(f, e), by simpa using hm, rfl⟩))
    have hknown := hG.known_iff.mp h.known
    refine ⟨hG.nNodes ▸ h.begins, hG.nNodes ▸ h.initial, hknown, ?_, ?_, ?_⟩
    · rintro k i j ⟨v, hi⟩ ⟨v', hj⟩ hne
      exact hpair _ _ ((hG.pairs _ _).mpr (.inr (.inr ⟨i, j, k, v, v', hi, hj, hne, rfl, rfl⟩)))
    · rintro k i j ⟨v, hi, hj⟩
      exact hknown _ (.read hi hj)
    · rintro k i j x ⟨v, hi, hj⟩ ⟨v', hx⟩ hxi hxj
      exact hpair _ _
        ((hG.pairs _ _).mpr (.inl ⟨i, j, x, k, v, v', hi, hj, hx, hxi, hxj, rfl, rfl⟩))
  · intro h
    have hapart : ∀ {i j k v v'}, Has extWritesFn H i k v → Has extWritesFn H j k v' → i ≠ j →
        Event.c i < Event.s j ∨ Event.c j < Event.s i :=
        fun hi hj hne => h.legal.apart ⟨_, hi⟩ ⟨_, hj⟩ hne
    have hread : ∀ e f, ReadPair H e f → e.Holds ∨ f.Holds := by
      rintro e f ⟨i, j, x, k, v, v', hi, hj, hx, hxi, hxj, rfl, rfl⟩
      exact h.legal.others ⟨v, hi, hj⟩ ⟨v', hx⟩ hxi hxj
    refine ⟨hG.nNodes ▸ h.begins, hG.nNodes ▸ h.first, hG.known_iff.mpr h.known, fun p hp => ?_⟩
    simp only [pairConstraints, List.mem_append, List.mem_map, SetOrder.mem_iter] at hp
    rcases hp with ⟨q, hq, rfl⟩ | ⟨q, hq, rfl⟩
    · simp only [List.mem_singleton, forall_eq]
      rcases (hG.pairs q.1 q.2).mp (.inl hq) with hr | hr | ⟨i, j, k, v, v', hi, hj, hne, he, hf⟩
      · exact hread _ _ hr
      · exact (hread _ _ hr).symm
      · rw [he, hf]
        exact hapart hi hj hne
    · simp only [List.mem_singleton, forall_eq]
      obtain ⟨hne, k, v, v', hi, hj⟩ := (hG.writers.pairs q.1 q.2).mp (.inl hq)
      exact hapart hi hj hne

/-- The plain checker accepts a returned graph iff some order explains the history. -/
theorem Built.satisfiable_iff (ht : t.Of H) :
    GraphSat.Satisfiable (MonoBCPolyGraphChecker.check G.nNodes (G.edgeList o) (o.iter G.edgePairs)
        (some G.extKey2writes)) ↔
      ∃ _ : LinearOrder Event,
        Explained H
          (KnownStep H histories strongSession t.initial Prod.snd (finOf o H hasFinal t)) := by
  have hpos : ∀ {i k v}, Has extWritesFn H i k v → i ≠ 0 := fun h => Nat.pos_iff_ne_zero.mp h.lt.1
  rw [MonoBCPolyGraphChecker.satisfiable_check_iff]
  · exact exists_congr fun _ => hG.ordered_iff
  · rw [hG.nNodes]
    exact List.length_pos_iff.mpr ht.loaded.1
  · intro e he
    exact hG.inv.dst_ne ((G.mem_edgeList o e).mp he).2
  · intro p hp
    simp only [pairConstraints, List.mem_append, List.mem_map, SetOrder.mem_iter] at hp
    rcases hp with ⟨q, hq, rfl⟩ | ⟨q, hq, rfl⟩
    · simp only [List.mem_singleton, forall_eq]
      rcases (hG.pairs q.1 q.2).mp (.inl hq) with ⟨i, j, x, k, v, v', hi, _, hx, _, _, he, hf⟩ |
        ⟨i, j, x, k, v, v', hi, _, hx, _, _, he, hf⟩ | ⟨i, j, k, v, v', hi, hj, _, he, hf⟩ <;>
        rw [he, hf]
      · exact ⟨hpos hi, hpos hx⟩
      · exact ⟨hpos hx, hpos hi⟩
      · exact ⟨hpos hj, hpos hi⟩
    · simp only [List.mem_singleton, forall_eq]
      obtain ⟨_, k, v, v', hi, hj⟩ := (hG.writers.pairs q.1 q.2).mp (.inl hq)
      exact ⟨hpos hj, hpos hi⟩

end Order

/-- The assertions behind the plain builder, on its input. -/
structure Checked (o : SetOrder) (H : List (Entry (Mop κ Value)))
    (histories : List (List (Entry (Mop κ Value))))
    (strongSession hasFinal : Bool) (t : Tables κ) : Prop where
  tables : t.Of H
  unique : ∀ i i' j k v, Has extReadsFn H j k v → Has extWritesFn H i k v →
    Has extWritesFn H i' k v → i = i'
  returned : ∀ q m k1 k2 rs dead, RangeAt H q m k1 k2 rs dead →
    assertReturned k1 k2 rs dead = .ok ()
  valid :
    ∀ c, KnownStep H histories strongSession t.initial Prod.snd (finOf o H hasFinal t) (.ok c) →
    c.Valid H.length
  rejects :
    ∀ e, KnownStep H histories strongSession t.initial Prod.snd (finOf o H hasFinal t) (.error e) →
    ∃ msg, e = .reject msg

section Run

variable (h : Checked o H histories strongSession hasFinal t)
include h

theorem Checked.mem_script (x : Except Err Cmd) :
    x ∈ script o H histories strongSession hasFinal t ↔
    KnownStep H histories strongSession t.initial Prod.snd (finOf o H hasFinal t) x ∨
      (∃ e f, ReadPair H e f ∧ x = .ok (.pair e f)) ∨
      ∃ q ∈ writerPairs (some (writersTable o t.extWrites Dict.empty)),
        x = .ok (.pair ⟨q.1, q.2, .ww⟩ ⟨q.2, q.1, .ww⟩) :=
  AdyaSI.mem_script h.tables h.unique h.returned x

theorem Checked.valid_script (c : Cmd)
    (hc : .ok c ∈ script o H histories strongSession hasFinal t) :
    c.Valid H.length := by
  rcases (h.mem_script _).mp hc
    with hk | ⟨e, f, ⟨i, j, x, k, v, v', _, _, _, hxi, hxj, rfl, rfl⟩, he⟩ | ⟨q, hq, he⟩
  · exact h.valid c hk
  · cases he
    exact ⟨hxi, Ne.symm hxj⟩
  · cases he
    have hne := ((writersOf_tables h.tables o).pairs q.1 q.2).mp (.inl hq) |>.1
    exact ⟨hne, Ne.symm hne⟩

theorem Checked.error_script (e : Err) : .error e ∈ script o H histories strongSession hasFinal t ↔
    KnownStep H histories strongSession t.initial Prod.snd (finOf o H hasFinal t) (.error e) := by
  rw [h.mem_script]
  simp

/-- Checked input with a reason to reject it is rejected. -/
theorem Checked.rejected {e : Err}
    (he : KnownStep H histories strongSession t.initial Prod.snd (finOf o H hasFinal t)
      (.error e)) :
    ∃ msg, constructGraphFromLog o H histories strongSession hasFinal = .error (.reject msg) := by
  obtain ⟨e', hplay, hm⟩ :=
    play_raises (G := (ArgumentedPolyGraph.init H.length).setSessionOrder histories)
    h.valid_script ((h.error_script e).mpr he)
  obtain ⟨msg, rfl⟩ := h.rejects e' ((h.error_script e').mp hm)
  exact ⟨msg, by rw [construct_eq o h.tables, hplay]; rfl⟩

/-- Without such a reason the graph is built. -/
theorem Checked.built
    (hno : ∀ e,
      ¬ KnownStep H histories strongSession t.initial Prod.snd (finOf o H hasFinal t) (.error e)) :
    ∃ G, constructGraphFromLog o H histories strongSession hasFinal = .ok G ∧
      Built o H histories strongSession hasFinal t G := by
  obtain ⟨G, hplay, _⟩ :=
    play_spec (G := (ArgumentedPolyGraph.init H.length).setSessionOrder histories)
    (S := script o H histories strongSession hasFinal t) (fun x hx => by
      cases x with
      | ok c => exact ⟨c, rfl, h.valid_script c hx⟩
      | error e => exact absurd ((h.error_script e).mp hx) (hno e))
  have hok : constructGraphFromLog o H histories strongSession hasFinal =
      .ok (G.withWrites (finalWrites o t.extWrites)) := by
    rw [construct_eq o h.tables, hplay]
    rfl
  obtain ⟨t', ht', hb⟩ := built_of_ok hok
  obtain rfl := ht'.unique h.tables
  exact ⟨_, hok, hb⟩

/-- Algorithm 4 decides whether some order explains the history, where a reason
to reject it counts as none. -/
theorem Checked.verdict (monosat : GraphSat.Oracle) :
    ∃ b, algo4 o monosat H histories strongSession hasFinal = .ok b ∧ (b = true ↔
      (∀ e, ¬ KnownStep H histories strongSession t.initial Prod.snd (finOf o H hasFinal t)
        (.error e)) ∧
        ∃ _ : LinearOrder Event,
          Explained H
            (KnownStep H histories strongSession t.initial Prod.snd (finOf o H hasFinal t))) := by
  by_cases hex :
    ∃ e, KnownStep H histories strongSession t.initial Prod.snd (finOf o H hasFinal t) (.error e)
  · obtain ⟨e, he⟩ := hex
    obtain ⟨msg, hrej⟩ := h.rejected he
    refine ⟨false, by rw [algo4, mainAlgo0124, hrej]; rfl, ?_⟩
    simp only [Bool.false_eq_true, false_iff]
    exact fun hno => hno.1 e he
  · obtain ⟨G, hG, hb⟩ := h.built (not_exists.mp hex)
    refine ⟨_, by rw [algo4, mainAlgo0124, hG]; rfl, ?_⟩
    exact ((monosat.solve_iff _).trans (hb.satisfiable_iff h.tables)).trans
      (and_iff_right (not_exists.mp hex)).symm

end Run

end Outcome

end AdyaSI

section WellFormed

/-- Every session lists transactions of the history, each at most once. -/
def SessionsOf {μ : Type} (H : List (Entry μ)) (histories : List (List (Entry μ))) : Prop :=
  ∀ txns ∈ histories, (txns.map Entry.id).Nodup ∧ ∀ e ∈ txns, 0 < e.id ∧ e.id < H.length

theorem SessionsOf.consecutive {μ : Type} {H : List (Entry μ)} {histories : List (List (Entry μ))}
    (h : SessionsOf H histories) {i j : Nat} (hc : Consecutive histories i j) :
    i ≠ j ∧ 0 < j ∧ i < H.length ∧ j < H.length := by
  obtain ⟨txns, ht, p, hp, rfl, rfl⟩ := hc
  obtain ⟨hn, hr⟩ := h txns ht
  have hm := List.of_mem_zip (a := p.1) (b := p.2) hp
  refine ⟨?_, (hr p.2 (List.mem_of_mem_tail hm.2)).1, (hr p.1 hm.1).2,
    (hr p.2 (List.mem_of_mem_tail hm.2)).2⟩
  cases txns with
  | nil => cases hp
  | cons e txns =>
    obtain ⟨n, hn', hp'⟩ := List.mem_iff_getElem.mp hp
    rw [List.getElem_zip] at hp'
    have hlt : n + 1 < (e :: txns).length := by
      simp only [List.length_zip, List.tail_cons, List.length_cons] at hn' ⊢
      omega
    intro he
    have h₁ : ((e :: txns).map Entry.id)[n]? = some p.1.id := by
      rw [← hp', List.getElem?_map, List.getElem?_eq_getElem (by omega)]
      rfl
    have h₂ : ((e :: txns).map Entry.id)[n + 1]? = some p.1.id := by
      rw [he, ← hp', List.getElem?_map, List.getElem?_eq_getElem hlt]
      rfl
    have := (List.getElem?_inj (by simp only [List.length_map]; omega) hn).mp (h₁.trans h₂.symm)
    omega

/-- An initial transaction of successful writes is read. -/
theorem initialState_total {H : List (Entry (Mop κ Value))}
    (h : ∃ e, H.head? = some e ∧ ∀ ops, e.value = some ops →
      ∀ mop ∈ ops, ∃ k v, mop = .w k v true) :
    ∃ st, initialState H = .ok st := by
  obtain ⟨e, he, hops⟩ := h
  cases hv : e.value with
  | none => exact ⟨none, by simp [initialState, he, hv]⟩
  | some ops =>
    obtain ⟨d, hd, _⟩ :=
      foldlM_total (fun _ => True) (f := initialWrite) (l := ops) (s := Dict.empty)
      (fun d mop hm _ => by
        obtain ⟨k, v, rfl⟩ := hops ops hv mop hm
        exact ⟨d.set k v, rfl, trivial⟩) trivial
    exact ⟨some d, by simp [initialState, he, hv, hd]⟩

/-- Histories that pass the assertions of the builders: a readable initial
transaction, values for all others, admissible micro-operations, every version
written once, and nobody reading its own version externally. -/
structure WellFormed (H : List (Entry (Mop κ Value))) : Prop where
  initial : ∃ st, initialState H = .ok st
  complete : ∀ i, 0 < i → i < H.length → ∃ txn, TxnAt H i txn
  admissible : ∀ i txn, TxnAt H i txn → ∀ mop ∈ txn, mop.Admissible
  unique : UniqueWrites H
  apart : ∀ i k v, Has extReadsFn H i k v → ¬ Has extWritesFn H i k v

theorem WellFormed.loaded {H : List (Entry (Mop κ Value))} (h : WellFormed H) : Loaded H := by
  refine ⟨?_, fun e he => ?_⟩
  · rintro rfl
    obtain ⟨st, hst⟩ := h.initial
    cases hst
  · obtain ⟨n, hn⟩ := List.mem_iff_getElem?.mp (List.dropLast_subset _ he)
    rw [List.getElem?_tail] at hn
    obtain ⟨txn, _, e', he', hv⟩ :=
      h.complete (n + 1) (Nat.succ_pos n) (List.getElem?_eq_some_iff.mp hn).1
    rw [hn] at he'
    cases he'
    rw [hv]
    rfl

theorem WellFormed.tables {H : List (Entry (Mop κ Value))} (h : WellFormed H) :
    ∃ t : Tables κ, t.Of H := by
  have hL := h.loaded
  obtain ⟨st, hst⟩ := h.initial
  obtain ⟨X, hX⟩ := extIndex_total hL (fun i txn ht => extWritesFn_total (h.admissible i txn ht))
  obtain ⟨R, hR⟩ := extIndex_total hL (fun i txn ht => extReadsFn_total (h.admissible i txn ht))
  obtain ⟨ups, hups⟩ := upserts_total hL h.unique
  obtain ⟨K, hK⟩ := allKeys_total hL
  obtain ⟨qs, hqs⟩ := queries_total hL
  exact ⟨⟨X, R, st, ups, K, qs⟩, hX, hR, hst, hups, hK, hqs⟩

variable [ToString κ] {H : List (Entry (Mop κ Value))}
  {histories : List (List (Entry (Mop κ Value)))} {strongSession hasFinal : Bool}

/-- The assertions of the plain builder hold when nobody reads its own version and
every read has one writer, the records lie between their bounds, and the final
state passes its own assertions. -/
theorem AdyaSI.checked_of_apart {t : Tables κ} (ht : t.Of H) (o : SetOrder)
    (strongSession hasFinal : Bool)
    (hU : ∀ i i' j k v, Has extReadsFn H j k v → Has extWritesFn H i k v →
      Has extWritesFn H i' k v → i = i')
    (hA : ∀ i k v, Has extReadsFn H i k v → ¬ Has extWritesFn H i k v)
    (hret : ∀ q m k1 k2 rs dead, RangeAt H q m k1 k2 rs dead →
      assertReturned k1 k2 rs dead = .ok ())
    (hS : SessionsOf H histories)
    (hfin : ∀ x ∈ finOf o H hasFinal t, ∃ c, x = .ok c ∧ c.Valid H.length) :
    Checked o H histories strongSession hasFinal t := by
  have hpos : ∀ {f : List (Mop κ Value) → Except Err (Dict κ Value)} {i k v},
    Has f H i k v → i ≠ 0 :=
    fun h => Nat.pos_iff_ne_zero.mp h.lt.1
  refine ⟨ht, hU, hret, ?_, ?_⟩
  · intro c hc
    cases hc with
    | session _ hcons =>
      obtain ⟨h₁, h₂, h₃, _⟩ := hS.consecutive hcons
      exact ⟨h₁, Nat.pos_iff_ne_zero.mp h₂, h₃⟩
    | first hi hn =>
      exact ⟨(Nat.pos_iff_ne_zero.mp hi).symm, Nat.pos_iff_ne_zero.mp hi,
        Nat.lt_of_le_of_lt (Nat.zero_le _) hn⟩
    | @read i j k v hw hr =>
      refine ⟨fun he => ?_, hpos hr, hw.lt.2⟩
      obtain rfl : i = j := he
      exact hA i k v hr hw
    | initialRead hr _ _ => exact ⟨(hpos hr).symm, hpos hr, Nat.lt_trans hr.lt.1 hr.lt.2⟩
    | initialOther hr _ _ hw hne => exact ⟨Ne.symm hne, hpos hw, hr.lt.2⟩
    | final hx =>
      obtain ⟨c', he, hv⟩ := hfin _ hx
      cases he
      exact hv
    | omitted hom hu hne =>
      obtain ⟨_, _, _, _, ⟨_, _, ht, _⟩, _⟩ := hom
      obtain ⟨_, _, _, hti, _⟩ := hu
      exact ⟨Ne.symm hne, Nat.pos_iff_ne_zero.mp hti.1, ht.lt⟩
  · intro e he
    cases he with
    | dirtyRead => exact ⟨_, rfl⟩
    | ownUpsert => exact ⟨_, rfl⟩
    | final hx =>
      obtain ⟨c, he, _⟩ := hfin _ hx
      cases he

/-- Well-formed histories pass every assertion of the plain builder, if the
final state does. -/
theorem AdyaSI.checked_of_wellFormed (strongSession hasFinal : Bool) (o : SetOrder)
    (h : WellFormed H) (hS : SessionsOf H histories)
    (hfin : ∀ t : Tables κ, t.Of H →
      ∀ x ∈ finOf o H hasFinal t, ∃ c, x = .ok c ∧ c.Valid H.length) :
    ∃ t, Checked o H histories strongSession hasFinal t := by
  obtain ⟨t, ht⟩ := h.tables
  refine ⟨t,
    checked_of_apart ht o strongSession hasFinal (fun i i' j k v _ hw hw' => h.unique.ext hw hw')
    h.apart ?_ hS (hfin t ht)⟩
  rintro q m k1 k2 rs dead ⟨txn, fin, ht, hj⟩
  have ha := h.admissible q txn ht _ (List.mem_of_getElem? hj)
  exact assertReturned_eq_ok.mpr (fun item hi => inBetween_of_assertBounds (ha item hi))

end WellFormed

end Viper
