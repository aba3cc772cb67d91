import Mathlib.Data.Prod.Basic
import Viper.AdyaSISpec
import Viper.Lib.Text

/-!
# Polygraph files (`utils/graphs.py`, `utils/utils.py`)

A polygraph is written as lines and read back by two loaders. The calls that
build one take any integers as nodes, so the graph of this module is the
polygraph over the integers; the polygraphs of the builders embed into it.
-/
namespace Viper

open Py

/-- The name of a type in a file. -/
def EdgeType.text : EdgeType → List Char
  | .wr => ['w', 'r']
  | .ww => ['w', 'w']
  | .rw => ['r', 'w']
  | .cb => ['c', 'b']

namespace GraphFile

/-- `(src, dst, type)` in a graph -/
abbrev IntEdge := Int × Int × EdgeType

/-- `(src, dst, type)` as read from a file; the type is any text. -/
abbrev FileEdge := Int × Int × List Char

structure PolyGraph where
  nNodes : Int
  edges : Int → List (Int × EdgeType)
  edgePairs : List (IntEdge × IntEdge)
  edgeTypeLookup : Int → Dict Int (List EdgeType)

inductive Call where
  | addEdge : IntEdge → Call
  | addEdgePair : IntEdge → IntEdge → Call
  deriving DecidableEq, Repr

namespace PolyGraph

def init (nNodes : Int) : PolyGraph := ⟨nNodes, fun _ => [], [], fun _ => Dict.empty⟩

/-- The loop of the source only continues: every id is accepted. -/
def isValidNodeId (_ : PolyGraph) (_ : List Int) : Bool := true

def store (G : PolyGraph) (src dst : Int) (type : EdgeType) : PolyGraph :=
  { G with
    edges := Function.update G.edges src ((G.edges src).insert (dst, type))
    edgeTypeLookup := Function.update G.edgeTypeLookup src
      ((G.edgeTypeLookup src).set dst (((G.edgeTypeLookup src).getD dst []).insert type)) }

/-- The adjacency dict has the keys of `range(n_nodes)`. -/
def addEdge (G : PolyGraph) (src dst : Int) (type : EdgeType) : Except Err PolyGraph := do
  require (G.isValidNodeId [src, dst]) ""
  require (src ≠ dst) ""
  require (dst ≠ 0) ""
  if src < 0 ∨ G.nNodes ≤ src then .error .keyError
  else if type = .rw then .ok (G.store src dst type)
  else if (ArgumentedPolyGraph.otherTypes type).any (fun t => (dst, t) ∈ G.edges src) then .ok G
  else .ok (G.store src dst type)

def addEdgePair (G : PolyGraph) (e1 e2 : IntEdge) : Except Err PolyGraph := do
  require (G.isValidNodeId [e1.1, e1.2.1, e2.1, e2.2.1]) ""
  require (e1.1 ≠ e1.2.1 ∧ e2.1 ≠ e2.2.1) ""
  if (e1, e2) ∈ G.edgePairs ∨ (e2, e1) ∈ G.edgePairs then .ok G
  else .ok { G with edgePairs := G.edgePairs.insert (e1, e2) }

def call (G : PolyGraph) : Call → Except Err PolyGraph
  | .addEdge e => G.addEdge e.1 e.2.1 e.2.2
  | .addEdgePair e1 e2 => G.addEdgePair e1 e2

/-- A call that raises has changed nothing. -/
def attempt (G : PolyGraph) (c : Call) : PolyGraph :=
  match G.call c with
  | .ok G' => G'
  | .error _ => G

/-- The graph after a sequence of calls. -/
def build (nNodes : Int) (calls : List Call) : PolyGraph := calls.foldl attempt (init nNodes)

end PolyGraph

section Writing

def fileEdge (e : IntEdge) : FileEdge := (e.1, e.2.1, e.2.2.text)

/-- `"%d,%d,%s"` -/
def edgeText (e : FileEdge) : List Char :=
  [','].intercalate [Text.decimal e.1, Text.decimal e.2.1, e.2.2]

/-- `"n:%d"` -/
def nodesLine (n : Int) : List Char := ['n'] ++ ':' :: Text.decimal n

/-- `"e:%d,%d,%s"` -/
def edgeLine (e : FileEdge) : List Char := ['e'] ++ ':' :: edgeText e

/-- `"(%d,%d,%s)"` -/
def parens (e : FileEdge) : List Char := '(' :: (edgeText e ++ [')'])

/-- `"(%d,%d,%s) (%d,%d,%s)"` -/
def pairText (e1 e2 : FileEdge) : List Char := parens e1 ++ ' ' :: parens e2

/-- `"p:(%d,%d,%s) (%d,%d,%s)"` -/
def pairLine (p : FileEdge × FileEdge) : List Char := ['p'] ++ ':' :: pairText p.1 p.2

/-- The edges, in the order in which the file lists them. -/
def edgeList (o : SetOrder) (G : PolyGraph) : List IntEdge :=
  (List.range G.nNodes.toNat).flatMap
    fun src : Nat => (o.iter (G.edges src)).map fun p => ((src : Int), p.1, p.2)

def filePair (p : IntEdge × IntEdge) : FileEdge × FileEdge := (fileEdge p.1, fileEdge p.2)

def outputLines (o : SetOrder) (G : PolyGraph) : List (List Char) :=
  nodesLine G.nNodes ::
    ((edgeList o G).map (fun e => edgeLine (fileEdge e)) ++
      (o.iter G.edgePairs).map (fun p => pairLine (filePair p)))

/-- The text of the file. -/
def output2file (o : SetOrder) (G : PolyGraph) : List Char :=
  (outputLines o G).flatMap (· ++ ['\n'])

end Writing

section Reading

/-- `int(...)` -/
def int (cs : List Char) : Except Err Int :=
  match Text.parseInt cs with
  | some n => .ok n
  | none => .error .valueError

def extractEdge (edge : List Char) : Except Err FileEdge :=
  match edge.splitOn ',' with
  | [src, dst, type] => do
    let src ← int src
    let dst ← int dst
    .ok (src, dst, type)
  | _ => .error (.assertion "ill-format edge: src,dst,type")

def extractEdgePair (edgePair : List Char) : Except Err (FileEdge × FileEdge) :=
  match edgePair.splitOn ' ' with
  | [edge1, edge2] => do
    let edge1 ← extractEdge edge1.tail.dropLast
    let edge2 ← extractEdge edge2.tail.dropLast
    .ok (edge1, edge2)
  | _ => .error .valueError

/-- `_sort` -/
def sort (edge1 edge2 : FileEdge) : FileEdge × FileEdge :=
  if edge2.1 < edge1.1 ∨ (edge2.1 = edge1.1 ∧ edge2.2.1 < edge1.2.1)
      ∨ (edge2.1 = edge1.1 ∧ edge2.2.1 = edge1.2.1 ∧ edge2.2.2 < edge1.2.2)
  then (edge2, edge1)
  else (edge1, edge2)

def extractAgumentGraphEdge (edge : List Char) : Except Err FileEdge :=
  match edge.splitOn ',' with
  | [src, dst, type] => do
    let src ← int src
    let dst ← int dst
    .ok (src, dst, type)
  | _ => .error (.assertion "ill-format edge: src,dst,type")

def extractAgumentGraphEdgePair (edgePair : List Char) : Except Err (FileEdge × FileEdge) :=
  match edgePair.splitOn ' ' with
  | [edge1, edge2] => do
    let edge1 ← extractAgumentGraphEdge edge1.tail.dropLast
    let edge2 ← extractAgumentGraphEdge edge2.tail.dropLast
    .ok (edge1, edge2)
  | _ => .error .valueError

def sortTwoEdges (edge1 edge2 : FileEdge) : FileEdge × FileEdge :=
  if edge2.1 < edge1.1 ∨ (edge2.1 = edge1.1 ∧ edge2.2.1 < edge1.2.1)
      ∨ (edge2.1 = edge1.1 ∧ edge2.2.1 = edge1.2.1 ∧ edge2.2.2 < edge1.2.2)
  then (edge2, edge1)
  else (edge1, edge2)

/-- What has been read so far. -/
structure Loaded where
  n : Int
  edges : List FileEdge
  edgePairs : List (FileEdge × FileEdge)

variable (extract : List Char → Except Err FileEdge)
  (extractPair : List Char → Except Err (FileEdge × FileEdge))
  (order : FileEdge → FileEdge → FileEdge × FileEdge)

/-- One line, with its line break. -/
def loadLine (L : Loaded) (line : List Char) : Except Err Loaded :=
  if line = [] then .ok L
  else
    match line.splitOn ':' with
    | [symbol, content] =>
      if symbol = ['n'] then do
        require (L.n = 0) "multiple n in file"
        let n ← int content
        .ok { L with n := n }
      else if symbol = ['e'] then do
        let edge ← extract content.dropLast
        require (edge ∉ L.edges) ""
        .ok { L with edges := L.edges.insert edge }
      else if symbol = ['p'] then do
        let pair ← extractPair content.dropLast
        .ok { L with edgePairs := L.edgePairs.insert (order pair.1 pair.2) }
      else .error (.assertion ("Line = " ++ String.ofList line ++ " should never be here"))
    | _ => .error (.assertion "ill-format log")

/-- The loop that both loaders share; no constraint is ever read. -/
def load (o : SetOrder) (text : List Char) :
    Except Err (Int × List FileEdge × List (FileEdge × FileEdge)) := do
  let L ← (Text.readlines text).foldlM (loadLine extract extractPair order) ⟨0, [], []⟩
  .ok (L.n, o.iter L.edges, o.iter L.edgePairs)

/-- `load_from_file` -/
def loadFromFile : SetOrder → List Char → Except Err
    (Int × List FileEdge × List (FileEdge × FileEdge)) :=
  load extractEdge extractEdgePair sort

/-- `load_AgumentGraph_file` -/
def loadAgumentGraphFile : SetOrder → List Char → Except Err
    (Int × List FileEdge × List (FileEdge × FileEdge)) :=
  load extractAgumentGraphEdge extractAgumentGraphEdgePair sortTwoEdges

end Reading

section RoundTrip

theorem int_decimal (n : Int) : int (Text.decimal n) = .ok n := by
  have h : Text.parseInt (Text.decimal n ++ []) = some n :=
    Text.parseInt_decimal n (fun c hc => absurd hc List.not_mem_nil)
  rw [List.append_nil] at h
  rw [int, h]

theorem int_decimal_newline (n : Int) : int (Text.decimal n ++ ['\n']) = .ok n := by
  have h : Text.parseInt (Text.decimal n ++ ['\n']) = some n :=
    Text.parseInt_decimal n (fun c hc => by
    rw [List.mem_singleton.mp hc]
    rfl)
  rw [int, h]

theorem isAlpha_of_mem_text {type : EdgeType} {c : Char} (h : c ∈ type.text) :
    c.isAlpha = true := by
  have hall : type.text.all Char.isAlpha = true := by
    cases type <;> rfl
  exact List.all_eq_true.mp hall c h

theorem text_injective {t1 t2 : EdgeType} (h : t1.text = t2.text) : t1 = t2 := by
  revert h
  cases t1 <;> cases t2 <;> decide

theorem fileEdge_injective : Function.Injective fileEdge := by
  intro e f h
  obtain ⟨src1, dst1, type1⟩ := e
  obtain ⟨src2, dst2, type2⟩ := f
  simp only [fileEdge, Prod.mk.injEq] at h
  rw [h.1, h.2.1, text_injective h.2.2]

theorem filePair_injective : Function.Injective filePair := by
  intro p q h
  simp only [filePair, Prod.mk.injEq] at h
  exact Prod.ext (fileEdge_injective h.1) (fileEdge_injective h.2)

/-- What is neither a letter nor part of a number separates the fields of a line. -/
structure Separator (c : Char) : Prop where
  not_alpha : c.isAlpha = false
  not_digit : c.isDigit = false
  ne_minus : c ≠ '-'

namespace Separator

variable {c : Char}

theorem not_mem_decimal (h : Separator c) (n : Int) : c ∉ Text.decimal n :=
  Text.not_mem_decimal h.not_digit h.ne_minus n

theorem not_mem_text (h : Separator c) (type : EdgeType) : c ∉ type.text := by
  intro hm
  have hc := isAlpha_of_mem_text hm
  rw [h.not_alpha] at hc
  cases hc

theorem not_mem_fields (h : Separator c) (e : IntEdge) :
    ∀ field ∈ [Text.decimal e.1, Text.decimal e.2.1, e.2.2.text], c ∉ field := by
  intro field hf
  simp only [List.mem_cons, List.not_mem_nil, or_false] at hf
  rcases hf with rfl | rfl | rfl
  · exact h.not_mem_decimal e.1
  · exact h.not_mem_decimal e.2.1
  · exact h.not_mem_text e.2.2

theorem not_mem_edgeText (h : Separator c) (hc : c ≠ ',') (e : IntEdge) :
    c ∉ edgeText (fileEdge e) := by
  have hfields := h.not_mem_fields e
  simp only [List.forall_mem_cons] at hfields
  obtain ⟨hsrc, hdst, htype, -⟩ := hfields
  simp only [edgeText, fileEdge, List.intercalate_cons_cons, List.intercalate_singleton,
    List.mem_append, List.mem_singleton]
  simp [hsrc, hdst, htype, hc]

/-- Only the blank and the parentheses of a pair are separators apart from the commas. -/
theorem not_mem_pairText (h : Separator c) (hc : c ∉ [',', ' ', '(', ')']) (p : IntEdge × IntEdge) :
    c ∉ pairText (fileEdge p.1) (fileEdge p.2) := by
  simp only [List.mem_cons, List.not_mem_nil, or_false, not_or] at hc
  have h1 := h.not_mem_edgeText hc.1 p.1
  have h2 := h.not_mem_edgeText hc.1 p.2
  simp [pairText, parens, h1, h2, hc]

end Separator

theorem separator_comma : Separator ',' := ⟨rfl, rfl, by decide⟩
theorem separator_blank : Separator ' ' := ⟨rfl, rfl, by decide⟩
theorem separator_colon : Separator ':' := ⟨rfl, rfl, by decide⟩
theorem separator_newline : Separator '\n' := ⟨rfl, rfl, by decide⟩

theorem extractEdge_edgeText (e : IntEdge) :
    extractEdge (edgeText (fileEdge e)) = .ok (fileEdge e) := by
  have hsplit : (edgeText (fileEdge e)).splitOn ',' =
    [Text.decimal e.1, Text.decimal e.2.1, e.2.2.text] :=
    List.splitOn_intercalate ',' (separator_comma.not_mem_fields e) (List.cons_ne_nil _ _)
  simp only [extractEdge, hsplit, int_decimal, ok_bind]
  rfl

theorem extractEdgePair_pairText (p : IntEdge × IntEdge) :
    extractEdgePair (pairText (fileEdge p.1) (fileEdge p.2)) = .ok (filePair p) := by
  have hblank (e : IntEdge) : ' ' ∉ parens (fileEdge e) := by
    have h := separator_blank.not_mem_edgeText (by decide) e
    simp [parens, h]
  have hparens (e : IntEdge) : extractEdge (parens (fileEdge e)).tail.dropLast =
      .ok (fileEdge e) := by
    rw [parens, List.tail_cons, List.dropLast_concat, extractEdge_edgeText]
  have hsplit : (pairText (fileEdge p.1) (fileEdge p.2)).splitOn ' ' =
      [parens (fileEdge p.1), parens (fileEdge p.2)] := by
    rw [pairText, List.splitOn_append_cons_self_of_not_mem (hblank p.1),
      List.splitOn_eq_singleton (hblank p.2)]
  simp only [extractEdgePair, hsplit, hparens, ok_bind]
  rfl

/-- The loaders have the same helpers under two names. -/
theorem loadAgumentGraphFile_eq : loadAgumentGraphFile = loadFromFile := by
  have hedge : extractAgumentGraphEdge = extractEdge := rfl
  have hpair : extractAgumentGraphEdgePair = extractEdgePair := rfl
  have hsort : sortTwoEdges = sort := rfl
  rw [loadAgumentGraphFile, loadFromFile, hedge, hpair, hsort]

/-- A loader's step on the line that carries `content` behind a symbol. -/
theorem splitOn_colon {content : List Char} (symbol : Char) (hs : symbol ≠ ':')
    (h : ':' ∉ content) :
    ([symbol] ++ ':' :: content ++ ['\n']).splitOn ':' = [[symbol], content ++ ['\n']] := by
  have hsymbol : ':' ∉ [symbol] := fun hm => hs (List.mem_singleton.mp hm).symm
  have hcontent : ':' ∉ content ++ ['\n'] := by
    simp [h]
  change ([symbol] ++ ':' :: (content ++ ['\n'])).splitOn ':' = [[symbol], content ++ ['\n']]
  rw [List.splitOn_append_cons_self_of_not_mem hsymbol, List.splitOn_eq_singleton hcontent]

theorem loadLine_nodesLine (n : Int) {L : Loaded} (h : L.n = 0) :
    loadLine extractEdge extractEdgePair sort L (nodesLine n ++ ['\n']) =
      .ok { L with n := n } := by
  have hsplit := splitOn_colon 'n' (by decide) (separator_colon.not_mem_decimal n)
  simp only [loadLine, nodesLine, hsplit, int_decimal_newline, ok_bind, h]
  rfl

theorem loadLine_edgeLine {e : IntEdge} {L : Loaded} (h : fileEdge e ∉ L.edges) :
    loadLine extractEdge extractEdgePair sort L (edgeLine (fileEdge e) ++ ['\n'])
      = .ok { L with edges := fileEdge e :: L.edges } := by
  have hsplit := splitOn_colon 'e' (by decide) (separator_colon.not_mem_edgeText (by decide) e)
  simp only [loadLine, edgeLine, hsplit, List.dropLast_concat, extractEdge_edgeText, ok_bind]
  simp [require, h]

theorem loadLine_pairLine {p : IntEdge × IntEdge} {L : Loaded}
    (h : sort (fileEdge p.1) (fileEdge p.2) ∉ L.edgePairs) :
    loadLine extractEdge extractEdgePair sort L (pairLine (filePair p) ++ ['\n'])
      = .ok { L with edgePairs := sort (fileEdge p.1) (fileEdge p.2) :: L.edgePairs } := by
  have hsplit := splitOn_colon 'p' (by decide) (separator_colon.not_mem_pairText (by decide) p)
  simp only [loadLine, pairLine, filePair, hsplit, List.dropLast_concat,
    extractEdgePair_pairText, ok_bind]
  simp [h]

/-- A loop that collects one new item a line. -/
theorem foldlM_collect {α β σ : Type} {step : σ → List Char → Except Err σ} {line : α → List Char}
    {item : α → β}
    (put : List β → σ)
    (hstep : ∀ a bs, item a ∉ bs → step (put bs) (line a) = .ok (put (item a :: bs)))
    {l : List α} (hn : (l.map item).Nodup) {bs : List β} (hd : ∀ a ∈ l, item a ∉ bs) :
    (l.map line).foldlM step (put bs) = .ok (put ((l.map item).reverse ++ bs)) := by
  induction l generalizing bs with
  | nil => rfl
  | cons a l ih =>
    rw [List.map_cons, List.nodup_cons] at hn
    have hnew : ∀ b ∈ l, item b ∉ item a :: bs := by
      intro b hb hm
      rcases List.mem_cons.mp hm with he | hm
      · exact hn.1 (he ▸ List.mem_map_of_mem hb)
      · exact hd b (List.mem_cons_of_mem a hb) hm
    rw [List.map_cons, List.foldlM_cons, hstep a bs (hd a List.mem_cons_self), ok_bind,
      ih hn.2 hnew]
    simp

/-- An edge pair as the loaders store it. -/
def sorted (p : IntEdge × IntEdge) : FileEdge × FileEdge := sort (fileEdge p.1) (fileEdge p.2)

theorem newline_not_mem_outputLines (o : SetOrder) (G : PolyGraph) :
    ∀ line ∈ outputLines o G, '\n' ∉ line := by
  have hs := separator_newline
  intro line hline
  simp only [outputLines, List.mem_cons, List.mem_append, List.mem_map] at hline
  rcases hline with rfl | ⟨e, -, rfl⟩ | ⟨p, -, rfl⟩
  · have h := hs.not_mem_decimal G.nNodes
    simp [nodesLine, h]
  · have h := hs.not_mem_edgeText (by decide) e
    simp [edgeLine, h]
  · have h := hs.not_mem_pairText (by decide) p
    simp [pairLine, filePair, h]

/-- What the loader reads of a file without duplicate edges and pairs. -/
theorem loadFromFile_output2file_eq (o o' : SetOrder) {G : PolyGraph} (he : (edgeList o G).Nodup)
    (hp : (G.edgePairs.map sorted).Nodup) :
    loadFromFile o' (output2file o G)
      = .ok (G.nNodes, o'.iter ((edgeList o G).map fileEdge).reverse,
        o'.iter ((o.iter G.edgePairs).map sorted).reverse) := by
  have hedges : ((edgeList o G).map fun e => edgeLine (fileEdge e) ++ ['\n']).foldlM
      (loadLine extractEdge extractEdgePair sort) ⟨G.nNodes, [], []⟩
      = .ok ⟨G.nNodes, ((edgeList o G).map fileEdge).reverse ++ [], []⟩ :=
    foldlM_collect (fun es => Loaded.mk G.nNodes es [])
      (fun e es hm => loadLine_edgeLine hm) (he.map fileEdge_injective)
        (fun e _ hm => absurd hm List.not_mem_nil)
  have hsorted : ((o.iter G.edgePairs).map sorted).Nodup :=
    ((o.perm G.edgePairs).map sorted).nodup_iff.mpr hp
  have hpairs (es : List FileEdge) :
      ((o.iter G.edgePairs).map fun p => pairLine (filePair p) ++ ['\n']).foldlM
      (loadLine extractEdge extractEdgePair sort) ⟨G.nNodes, es, []⟩
      = .ok ⟨G.nNodes, es, ((o.iter G.edgePairs).map sorted).reverse ++ []⟩ :=
    foldlM_collect (fun ps => Loaded.mk G.nNodes es ps)
      (fun p ps hm => loadLine_pairLine hm) hsorted (fun p _ hm => absurd hm List.not_mem_nil)
  have hlines : Text.readlines (output2file o G) = (outputLines o G).map (· ++ ['\n']) :=
    Text.readlines_flatMap (newline_not_mem_outputLines o G)
  rw [loadFromFile, load, hlines, outputLines, List.map_cons, List.map_append, List.map_map,
    List.map_map, List.foldlM_cons, loadLine_nodesLine G.nNodes rfl, ok_bind, List.foldlM_append]
  simp only [Function.comp_def, hedges, hpairs, ok_bind, List.append_nil]

end RoundTrip

section Built

namespace PolyGraph

/-- What every graph keeps, whatever is called. -/
structure Inv (G : PolyGraph) : Prop where
  src_range : ∀ {src dst type}, (dst, type) ∈ G.edges src → 0 ≤ src ∧ src < G.nNodes
  edges_nodup : ∀ src, (G.edges src).Nodup
  pairs_nodup : G.edgePairs.Nodup
  symm_eq : ∀ {e f}, (e, f) ∈ G.edgePairs → (f, e) ∈ G.edgePairs → e = f

theorem inv_init (n : Int) : (init n).Inv where
  src_range h := absurd h List.not_mem_nil
  edges_nodup _ := List.nodup_nil
  pairs_nodup := List.nodup_nil
  symm_eq h := absurd h List.not_mem_nil

theorem Inv.store {G : PolyGraph} (h : G.Inv) {src : Int}
    (hs : 0 ≤ src ∧ src < G.nNodes) (dst : Int) (type : EdgeType) : (G.store src dst type).Inv where
  src_range := by
    intro s d t hm
    by_cases he : s = src
    · rw [he]
      exact hs
    · have hold : (d, t) ∈ G.edges s := by
        simpa [PolyGraph.store, Function.update_of_ne he] using hm
      exact h.src_range hold
  edges_nodup := by
    intro s
    by_cases he : s = src
    · rw [he]
      simpa [PolyGraph.store] using (h.edges_nodup src).insert
    · simpa [PolyGraph.store, Function.update_of_ne he] using h.edges_nodup s
  pairs_nodup := h.pairs_nodup
  symm_eq := h.symm_eq

theorem addEdge_cases {G G' : PolyGraph} {src dst : Int} {type : EdgeType}
    (h : G.addEdge src dst type = .ok G') :
    (G' = G ∧ ∃ t, (dst, t) ∈ G.edges src) ∨
      (0 ≤ src ∧ src < G.nNodes) ∧ G' = G.store src dst type := by
  simp only [addEdge, bind_eq_ok] at h
  obtain ⟨_, -, _, -, _, -, h⟩ := h
  split at h
  · cases h
  · rename_i hrange
    have hs : 0 ≤ src ∧ src < G.nNodes := by
      omega
    split at h
    · exact .inr ⟨hs, (Except.ok.inj h).symm⟩
    · split at h
      · rename_i hdup
        obtain ⟨t, -, hm⟩ := List.any_eq_true.mp hdup
        exact .inl ⟨(Except.ok.inj h).symm, t, of_decide_eq_true hm⟩
      · exact .inr ⟨hs, (Except.ok.inj h).symm⟩

theorem addEdgePair_cases {G G' : PolyGraph} {e1 e2 : IntEdge} (h : G.addEdgePair e1 e2 = .ok G') :
    (G' = G ∧ ((e1, e2) ∈ G.edgePairs ∨ (e2, e1) ∈ G.edgePairs)) ∨
      ((e1, e2) ∉ G.edgePairs ∧ (e2, e1) ∉ G.edgePairs) ∧
      G' = { G with edgePairs := G.edgePairs.insert (e1, e2) } := by
  simp only [addEdgePair, bind_eq_ok] at h
  obtain ⟨_, -, _, -, h⟩ := h
  split at h
  · rename_i hdup
    exact .inl ⟨(Except.ok.inj h).symm, hdup⟩
  · rename_i hnew
    exact .inr ⟨not_or.mp hnew, (Except.ok.inj h).symm⟩

/-- A new pair stands in one orientation only. -/
theorem Inv.insertPair {G : PolyGraph} (h : G.Inv) {e1 e2 : IntEdge}
    (hnew : (e2, e1) ∉ G.edgePairs) :
    PolyGraph.Inv { G with edgePairs := G.edgePairs.insert (e1, e2) } where
  src_range := h.src_range
  edges_nodup := h.edges_nodup
  pairs_nodup := h.pairs_nodup.insert
  symm_eq := by
    intro e f hef hfe
    rcases List.mem_insert_iff.mp hef with he | he
    · rcases List.mem_insert_iff.mp hfe with hf | hf
      · rw [Prod.mk.injEq] at he hf
        rw [he.1, hf.1]
      · rw [Prod.mk.injEq] at he
        exact absurd (he.1 ▸ he.2 ▸ hf) hnew
    · rcases List.mem_insert_iff.mp hfe with hf | hf
      · rw [Prod.mk.injEq] at hf
        exact absurd (hf.1 ▸ hf.2 ▸ he) hnew
      · exact h.symm_eq he hf

theorem Inv.attempt {G : PolyGraph} (h : G.Inv) (c : Call) : (G.attempt c).Inv := by
  rw [PolyGraph.attempt]
  split
  · rename_i G' hc
    cases c with
    | addEdge e =>
      rcases addEdge_cases hc with ⟨rfl, _⟩ | ⟨hs, rfl⟩
      · exact h
      · exact h.store hs e.2.1 e.2.2
    | addEdgePair e1 e2 =>
      rcases addEdgePair_cases hc with ⟨rfl, _⟩ | ⟨hnew, rfl⟩
      · exact h
      · exact h.insertPair hnew.2
  · exact h

theorem inv_build (n : Int) (calls : List Call) : (build n calls).Inv := by
  have hrun (G : PolyGraph) (h : G.Inv) : (calls.foldl PolyGraph.attempt G).Inv := by
    induction calls generalizing G with
    | nil => exact h
    | cons c calls ih => exact ih (G.attempt c) (h.attempt c)
  exact hrun (init n) (inv_init n)

/-- The edges of a graph, each with its source. -/
theorem Inv.mem_edgeList {G : PolyGraph} (h : G.Inv) (o : SetOrder) (e : IntEdge) :
    e ∈ edgeList o G ↔ e.2 ∈ G.edges e.1 := by
  obtain ⟨src, dst, type⟩ := e
  simp only [edgeList, List.mem_flatMap, List.mem_range, List.mem_map, SetOrder.mem_iter,
    Prod.mk.injEq]
  constructor
  · intro he
    obtain ⟨s, -, p, hp, hsrc, hdst, htype⟩ := he
    rw [← hsrc, ← hdst, ← htype]
    exact hp
  · intro hm
    have hs := h.src_range hm
    have hcast : (src.toNat : Int) = src := Int.toNat_of_nonneg hs.1
    refine ⟨src.toNat, by omega, (dst, type), ?_, hcast, rfl, rfl⟩
    rw [hcast]
    exact hm

theorem Inv.edgeList_nodup {G : PolyGraph} (h : G.Inv) (o : SetOrder) : (edgeList o G).Nodup := by
  rw [edgeList, List.nodup_flatMap]
  constructor
  · intro src _
    refine List.Nodup.map ?_ ((SetOrder.nodup_iter o _).mpr (h.edges_nodup src))
    intro p q hpq
    exact (Prod.mk.inj hpq).2
  · refine List.nodup_range.imp ?_
    intro s1 s2 hne e h1 h2
    obtain ⟨p, -, rfl⟩ := List.mem_map.mp h1
    obtain ⟨q, -, hq⟩ := List.mem_map.mp h2
    exact hne (Int.ofNat.inj (Prod.mk.inj hq).1.symm)

/-- Sorting a pair keeps it or swaps it, so no two stored pairs are sorted alike. -/
theorem Inv.sorted_inj {G : PolyGraph} (h : G.Inv) {p q : IntEdge × IntEdge} (hp : p ∈ G.edgePairs)
    (hq : q ∈ G.edgePairs) (he : sorted p = sorted q) : p = q := by
  have hcases (p : IntEdge × IntEdge) : sorted p = filePair p ∨ sorted p = filePair p.swap := by
    rw [sorted, sort]
    split
    · exact .inr rfl
    · exact .inl rfl
  have hswap : p = q ∨ p = q.swap := by
    rcases hcases p with h1 | h1 <;> rcases hcases q with h2 | h2 <;> rw [h1, h2] at he
    · exact .inl (filePair_injective he)
    · exact .inr (filePair_injective he)
    · exact .inr (Prod.swap_eq_iff_eq_swap.mp (filePair_injective he))
    · exact .inl (Prod.swap_injective (filePair_injective he))
  rcases hswap with hpq | hpq
  · exact hpq
  · rw [hpq] at hp ⊢
    have hef : q.1 = q.2 := h.symm_eq hq hp
    exact Prod.ext hef.symm hef

theorem Inv.map_sorted_nodup {G : PolyGraph} (h : G.Inv) : (G.edgePairs.map sorted).Nodup :=
  h.pairs_nodup.map_on (fun _ hp _ hq he => h.sorted_inj hp hq he)

end PolyGraph

open PolyGraph

variable (o o' : SetOrder)

/-- A file that `output2file` writes is read back by both loaders. -/
theorem loadFromFile_output2file (n : Int) (calls : List Call) :
    ∃ es ps, loadFromFile o' (output2file o (build n calls)) =
      .ok ((build n calls).nNodes, es, ps) ∧
      es.Nodup ∧
      (∀ e, e ∈ es ↔
        ∃ src dst type, (dst, type) ∈ (build n calls).edges src ∧ e = (src, dst, type.text)) ∧
      (∀ p, p ∈ ps ↔
        ∃ e f, (e, f) ∈ (build n calls).edgePairs ∧ p = sort (fileEdge e) (fileEdge f)) ∧
      ps.Nodup ∧ (build n calls).edgePairs.Nodup ∧ ps.length = (build n calls).edgePairs.length ∧
      loadAgumentGraphFile o' (output2file o (build n calls)) =
      .ok ((build n calls).nNodes, es, ps) := by
  have hinv := inv_build n calls
  generalize build n calls = G at hinv ⊢
  have hload := loadFromFile_output2file_eq o o' (hinv.edgeList_nodup o) hinv.map_sorted_nodup
  refine ⟨_, _, hload, ?_, ?_, ?_, ?_, hinv.pairs_nodup, ?_, ?_⟩
  · rw [SetOrder.nodup_iter, List.nodup_reverse]
    exact (hinv.edgeList_nodup o).map fileEdge_injective
  · intro e
    rw [SetOrder.mem_iter, List.mem_reverse, List.mem_map]
    constructor
    · intro he
      obtain ⟨e, hm, rfl⟩ := he
      exact ⟨e.1, e.2.1, e.2.2, (hinv.mem_edgeList o e).mp hm, rfl⟩
    · intro he
      obtain ⟨src, dst, type, hm, rfl⟩ := he
      exact ⟨(src, dst, type), (hinv.mem_edgeList o (src, dst, type)).mpr hm, rfl⟩
  · intro p
    rw [SetOrder.mem_iter, List.mem_reverse, List.mem_map]
    constructor
    · intro hp
      obtain ⟨q, hq, rfl⟩ := hp
      exact ⟨q.1, q.2, (SetOrder.mem_iter o _ q).mp hq, rfl⟩
    · intro hp
      obtain ⟨e, f, hm, rfl⟩ := hp
      exact ⟨(e, f), (SetOrder.mem_iter o _ (e, f)).mpr hm, rfl⟩
  · rw [SetOrder.nodup_iter, List.nodup_reverse]
    exact ((o.perm G.edgePairs).map sorted).nodup_iff.mpr hinv.map_sorted_nodup
  · rw [(o'.perm _).length_eq, List.length_reverse, List.length_map, (o.perm _).length_eq]
  · rw [loadAgumentGraphFile_eq]
    exact hload

end Built

section Builders

variable {κ : Type}

def intEdge (e : Edge) : IntEdge := (e.src, e.dst, e.type)

theorem intEdge_injective : Function.Injective intEdge := by
  intro e f h
  obtain ⟨src1, dst1, type1⟩ := e
  obtain ⟨src2, dst2, type2⟩ := f
  simp only [intEdge, Prod.mk.injEq, Int.natCast_inj] at h
  rw [h.1, h.2.1, h.2.2]

def callOf : Cmd → Call
  | .edge e => .addEdge (intEdge e)
  | .pair e f => .addEdgePair (intEdge e) (intEdge f)

/-- The adjacent node of an edge, among the integers. -/
def intDst (p : Nat × EdgeType) : Int × EdgeType := (p.1, p.2)

theorem intDst_injective : Function.Injective intDst := by
  intro p q h
  simp only [intDst, Prod.mk.injEq, Int.natCast_inj] at h
  exact Prod.ext h.1 h.2

/-- A polygraph over the integers that stores what a polygraph stores. -/
structure Embeds (G : ArgumentedPolyGraph κ) (H : PolyGraph) : Prop where
  nNodes : H.nNodes = G.nNodes
  edges : ∀ src : Nat, H.edges src = (G.edges src).map intDst
  edgePairs : H.edgePairs = G.edgePairs.map (Prod.map intEdge intEdge)

theorem map_insert {α β : Type} [BEq α] [LawfulBEq α] [BEq β] [LawfulBEq β] {f : α → β}
    (hf : Function.Injective f) (a : α)
    (l : List α) : (l.insert a).map f = (l.map f).insert (f a) := by
  by_cases h : a ∈ l
  · rw [List.insert_of_mem h, List.insert_of_mem (List.mem_map_of_mem h)]
  · have hm : f a ∉ l.map f := fun hm => h ((List.mem_map_of_injective hf).mp hm)
    rw [List.insert_of_not_mem h, List.insert_of_not_mem hm, List.map_cons]

theorem Embeds.store {G : ArgumentedPolyGraph κ} {H : PolyGraph} (h : Embeds G H) (src dst : Nat)
    (type : EdgeType) : Embeds (G.store src dst type) (H.store src dst type) where
  nNodes := h.nNodes
  edges s := by
    by_cases hs : s = src
    · rw [hs]
      simp [PolyGraph.store, ArgumentedPolyGraph.store, h.edges src,
        map_insert intDst_injective, intDst]
    · have hi : (s : Int) ≠ (src : Int) := by
        omega
      simp [PolyGraph.store, ArgumentedPolyGraph.store, Function.update_of_ne hs,
        Function.update_of_ne hi, h.edges s]
  edgePairs := h.edgePairs

theorem Embeds.addEdge {G G' : ArgumentedPolyGraph κ} {H : PolyGraph} (h : Embeds G H)
    {src dst : Nat} {type : EdgeType} (hG : G.addEdge src dst type = .ok G') :
    ∃ H', H.addEdge src dst type = .ok H' ∧ Embeds G' H' := by
  simp only [ArgumentedPolyGraph.addEdge, bind_eq_ok, require_eq_ok, decide_eq_true_eq] at hG
  obtain ⟨_, -, _, hne, _, hdst, hG⟩ := hG
  have hne' : (src : Int) ≠ (dst : Int) := by
    omega
  have hdst' : (dst : Int) ≠ 0 := by
    omega
  have hdup : (ArgumentedPolyGraph.otherTypes type).any
      (fun t => decide (((dst : Int), t) ∈ H.edges src))
      = (ArgumentedPolyGraph.otherTypes type).any (fun t => decide ((dst, t) ∈ G.edges src)) := by
    congr 1
    funext t
    rw [h.edges src]
    exact decide_eq_decide.mpr (List.mem_map_of_injective (a := (dst, t)) intDst_injective)
  simp only [PolyGraph.addEdge, PolyGraph.isValidNodeId, require, hne', hdst', ne_eq,
    not_false_eq_true, decide_true, if_true, ok_bind, hdup, h.nNodes]
  by_cases hrange : G.nNodes ≤ src
  · rw [if_pos hrange] at hG
    cases hG
  · rw [if_neg hrange] at hG
    have hrange' : ¬ ((src : Int) < 0 ∨ (G.nNodes : Int) ≤ (src : Int)) := by
      omega
    rw [if_neg hrange']
    by_cases ht : type = .rw
    · rw [if_pos ht] at hG ⊢
      exact ⟨_, rfl, Except.ok.inj hG ▸ h.store src dst type⟩
    · rw [if_neg ht] at hG ⊢
      split at hG
      · rename_i hd
        rw [if_pos hd]
        exact ⟨_, rfl, Except.ok.inj hG ▸ h⟩
      · rename_i hd
        rw [if_neg hd]
        exact ⟨_, rfl, Except.ok.inj hG ▸ h.store src dst type⟩

theorem Embeds.addEdgePair {G G' : ArgumentedPolyGraph κ} {H : PolyGraph}
    (h : Embeds G H) {e f : Edge}
    (hG : G.addEdgePair e.src e.dst e.type f.src f.dst f.type = .ok G') :
    ∃ H', H.addEdgePair (intEdge e) (intEdge f) = .ok H' ∧ Embeds G' H' := by
  simp only [ArgumentedPolyGraph.addEdgePair, bind_eq_ok, require_eq_ok, decide_eq_true_eq] at hG
  obtain ⟨_, -, _, hne, hG⟩ := hG
  have hne' : (intEdge e).1 ≠ (intEdge e).2.1 ∧ (intEdge f).1 ≠ (intEdge f).2.1 := by
    simp only [intEdge]
    omega
  have hmem (p : Edge × Edge) : (intEdge p.1, intEdge p.2) ∈ H.edgePairs ↔ p ∈ G.edgePairs := by
    rw [h.edgePairs]
    exact List.mem_map_of_injective (a := p) (intEdge_injective.prodMap intEdge_injective)
  simp only [PolyGraph.addEdgePair, PolyGraph.isValidNodeId, require, hne', ne_eq,
    not_false_eq_true, and_self, decide_true, if_true, ok_bind, hmem (e, f), hmem (f, e)]
  split at hG
  · rename_i hd
    rw [if_pos hd]
    exact ⟨_, rfl, Except.ok.inj hG ▸ h⟩
  · rename_i hd
    rw [if_neg hd]
    refine ⟨_, rfl, Except.ok.inj hG ▸ ⟨h.nNodes, h.edges, ?_⟩⟩
    have hinsert := map_insert (intEdge_injective.prodMap intEdge_injective) (e, f) G.edgePairs
    simp only [h.edgePairs, hinsert]
    rfl

/-- Each command of a script is a call on the embedded graph. -/
theorem Embeds.attempt {G G' : ArgumentedPolyGraph κ} {H : PolyGraph} (h : Embeds G H) {c : Cmd}
    (hc : exec G c = .ok G') : Embeds G' (H.attempt (callOf c)) := by
  cases c with
  | edge e =>
    obtain ⟨H', hH, hE⟩ := h.addEdge hc
    have hcall : H.call (callOf (.edge e)) = .ok H' := hH
    rw [PolyGraph.attempt, hcall]
    exact hE
  | pair e f =>
    obtain ⟨H', hH, hE⟩ := h.addEdgePair hc
    have hcall : H.call (callOf (.pair e f)) = .ok H' := hH
    rw [PolyGraph.attempt, hcall]
    exact hE

/-- A completed script is a sequence of calls. -/
theorem Embeds.play {G G' : ArgumentedPolyGraph κ} {H : PolyGraph} (h : Embeds G H) {S : Script}
    (hS : Viper.play G S = .ok G') : ∃ calls, Embeds G' (List.foldl PolyGraph.attempt H calls) := by
  induction S generalizing G H with
  | nil => exact ⟨[], Except.ok.inj hS ▸ h⟩
  | cons x S ih =>
    cases x with
    | error e =>
      rw [play_error] at hS
      cases hS
    | ok c =>
      rw [play_cons, bind_eq_ok] at hS
      obtain ⟨G₁, hc, hS⟩ := hS
      obtain ⟨calls, hE⟩ := ih (h.attempt hc) hS
      exact ⟨callOf c :: calls, hE⟩

theorem embeds_init (n : Nat) (histories : List (List Nat)) :
    Embeds { ArgumentedPolyGraph.init (κ := κ) n with histories := histories } (PolyGraph.init n) :=
  ⟨rfl, fun _ => rfl, rfl⟩

/-- The graph of the register builder is one that calls build. -/
theorem embeds_of_ok [LinearOrder κ] [ToString κ] {o : SetOrder} {H : List (Entry (Mop κ Value))}
    {histories : List (List (Entry (Mop κ Value)))} {strongSession hasFinal : Bool}
    {G : ArgumentedPolyGraph κ}
    (h : AdyaSI.constructGraphFromLog o H histories strongSession hasFinal = .ok G) :
    ∃ calls, Embeds G (PolyGraph.build H.length calls) := by
  obtain ⟨t, ht⟩ := AdyaSI.tables_of_ok o h
  rw [AdyaSI.construct_eq o ht] at h
  cases hp : play ((ArgumentedPolyGraph.init H.length).setSessionOrder histories)
      (AdyaSI.script o H histories strongSession hasFinal t) with
  | error e =>
    rw [hp] at h
    cases h
  | ok G' =>
    rw [hp] at h
    obtain rfl : G'.withWrites _ = G := Except.ok.inj h
    obtain ⟨calls, hE⟩ := (embeds_init H.length (histories.map (·.map Entry.id))).play hp
    exact ⟨calls, hE.nNodes, hE.edges, hE.edgePairs⟩

end Builders

end GraphFile

end Viper
