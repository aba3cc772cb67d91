import Mathlib.Data.List.Induction
import Mathlib.Data.List.Infix
import Mathlib.Data.List.Nodup
import Mathlib.Data.List.Perm.Basic

/-!
# Python containers and loops

Insertion-ordered dictionaries, sets as duplicate-free lists with an arbitrary
iteration order, and the rules for `for` loops whose body may raise. A loop is
a monadic left fold in `Except`; every rule below is one induction on the list
it runs over.
-/
namespace Py

variable {α β σ ε : Type}

/-- An iteration order for sets: any permutation of the stored elements. The
stored list records the insertion history, so two sets with equal elements and
different histories may be enumerated differently. -/
structure SetOrder where
  iter : {α : Type} → List α → List α
  perm : ∀ {α : Type} (s : List α), (iter s).Perm s

namespace SetOrder

/-- Enumerate a set as it is stored. -/
def stored : SetOrder := ⟨id, fun _ => List.Perm.refl _⟩

@[simp] theorem mem_iter (o : SetOrder) (s : List α) (a : α) : a ∈ o.iter s ↔ a ∈ s :=
  (o.perm s).mem_iff

@[simp] theorem nodup_iter (o : SetOrder) (s : List α) : (o.iter s).Nodup ↔ s.Nodup :=
  (o.perm s).nodup_iff

@[simp] theorem length_iter (o : SetOrder) (s : List α) : (o.iter s).length = s.length :=
  (o.perm s).length_eq

@[simp] theorem iter_nil (o : SetOrder) : o.iter ([] : List α) = [] :=
  List.perm_nil.mp (o.perm [])

end SetOrder

/-- Set difference. -/
def diff [DecidableEq α] (s t : List α) : List α := s.filter (fun a => a ∉ t)

@[simp] theorem mem_diff [DecidableEq α] (s t : List α) (a : α) : a ∈ diff s t ↔ a ∈ s ∧ a ∉ t := by
  simp [diff]

/-- `for c in l: s.add(f(c))` -/
theorem mem_insertAll [BEq α] [LawfulBEq α] (f : β → α) (l : List β) (s : List α) (a : α) :
    a ∈ l.foldl (fun s c => s.insert (f c)) s ↔ a ∈ s ∨ ∃ c ∈ l, a = f c := by
  induction l generalizing s with
  | nil => simp
  | cons c l ih => simp [ih, or_assoc, or_left_comm]

theorem nodup_insertAll [BEq α] [LawfulBEq α] (f : β → α) (l : List β) {s : List α} (h : s.Nodup) :
    (l.foldl (fun s c => s.insert (f c)) s).Nodup := by
  induction l generalizing s with
  | nil => exact h
  | cons c l ih => exact ih h.insert

section FirstOccurrences

variable [DecidableEq α]

theorem eraseDups_concat (l : List α) (a : α) :
    (l ++ [a]).eraseDups = if a ∈ l.eraseDups then l.eraseDups else l.eraseDups ++ [a] := by
  rw [List.eraseDups_append]
  by_cases h : a ∈ l <;> simp [List.removeAll, h, List.mem_eraseDups, List.eraseDups_cons]

theorem eraseDups_map [DecidableEq β] {f : α → β} (hf : Function.Injective f) (l : List α) :
    (l.map f).eraseDups = l.eraseDups.map f := by
  induction l using List.reverseRecOn with
  | nil => rfl
  | append_singleton l a ih =>
    rw [List.map_append, List.map_singleton, eraseDups_concat, eraseDups_concat, ih]
    by_cases h : a ∈ l.eraseDups <;> simp [List.mem_map_of_injective hf, h]

/-- The pairs `l` by their first components, each in the order in which it comes first. -/
def grouped [DecidableEq β] (l : List (α × β)) : List (α × β) :=
  (l.map Prod.fst).eraseDups.flatMap fun a =>
    ((l.filter (fun p => p.1 = a)).map Prod.snd).eraseDups.map fun b => (a, b)

theorem grouped_map [DecidableEq β] [DecidableEq σ] {f : β → σ} (hf : Function.Injective f)
    (l : List (α × β)) :
    grouped (l.map (fun p => (p.1, f p.2))) = (grouped l).map (fun p => (p.1, f p.2)) := by
  have hmap : ∀ a, ((l.map (fun p => (p.1, f p.2))).filter (fun p => p.1 = a)).map Prod.snd =
      ((l.filter (fun p => p.1 = a)).map Prod.snd).map f := by
    intro a
    rw [List.filter_map, List.map_map, List.map_map]
    rfl
  simp only [grouped, hmap, eraseDups_map hf]
  rw [List.map_map, List.map_flatMap]
  simp only [List.map_map]
  rfl

end FirstOccurrences

/-- A dictionary in insertion order, one entry a key. -/
structure Dict (α β : Type) where
  entries : List (α × β)
  nodup : (entries.map Prod.fst).Nodup

section Entries

variable [DecidableEq α]

/-- Overwrite the entry of a key in place, or append a new one. -/
def setEntry (a : α) (b : β) : List (α × β) → List (α × β)
  | [] => [(a, b)]
  | (x, y) :: rest => if x = a then (x, b) :: rest else (x, y) :: setEntry a b rest

theorem mem_keys_setEntry (a x : α) (b : β) (l : List (α × β)) :
    x ∈ (setEntry a b l).map Prod.fst ↔ x = a ∨ x ∈ l.map Prod.fst := by
  induction l with
  | nil => simp [setEntry]
  | cons p rest ih =>
    obtain ⟨y, z⟩ := p
    by_cases h : y = a
    · subst h; simp [setEntry]
    · simp only [setEntry, if_neg h, List.map_cons, List.mem_cons, ih]
      tauto

theorem nodup_setEntry (a : α) (b : β) (l : List (α × β)) (h : (l.map Prod.fst).Nodup) :
    ((setEntry a b l).map Prod.fst).Nodup := by
  induction l with
  | nil => simp [setEntry]
  | cons p rest ih =>
    obtain ⟨y, z⟩ := p
    rw [List.map_cons, List.nodup_cons] at h
    by_cases hy : y = a
    · rw [setEntry, if_pos hy, List.map_cons, List.nodup_cons]
      exact h
    · simp only [setEntry, if_neg hy, List.map_cons, List.nodup_cons]
      refine ⟨?_, ih h.2⟩
      rw [mem_keys_setEntry]
      rintro (he | hm)
      · exact hy he
      · exact h.1 hm

theorem setEntry_of_notMem {a : α} (b : β) {l : List (α × β)} (h : a ∉ l.map Prod.fst) :
    setEntry a b l = l ++ [(a, b)] := by
  induction l with
  | nil => rfl
  | cons p rest ih =>
    rw [List.map_cons, List.mem_cons, not_or] at h
    rw [setEntry, if_neg (Ne.symm h.1), ih h.2, List.cons_append]

theorem keys_setEntry {a : α} {b : β} {l : List (α × β)} (h : a ∈ l.map Prod.fst) :
    (setEntry a b l).map Prod.fst = l.map Prod.fst := by
  induction l with
  | nil => cases h
  | cons p l ih =>
    by_cases hp : p.1 = a
    · simp [setEntry, hp]
    · rw [List.map_cons, List.mem_cons] at h
      simp [setEntry, hp, ih (h.resolve_left (Ne.symm hp))]

/-- The value stored under a key. -/
def findEntry (a : α) : List (α × β) → Option β
  | [] => none
  | (x, y) :: rest => if x = a then some y else findEntry a rest

theorem findEntry_setEntry (a x : α) (b : β) (l : List (α × β)) :
    findEntry x (setEntry a b l) = if x = a then some b else findEntry x l := by
  induction l with
  | nil => simp [setEntry, findEntry, eq_comm]
  | cons p rest ih =>
    obtain ⟨y, z⟩ := p
    by_cases hy : y = a
    · subst hy
      by_cases hx : x = y <;> simp [setEntry, findEntry, hx, eq_comm]
    · by_cases hx : y = x
      · subst hx; simp [setEntry, findEntry, hy]
      · simp [setEntry, findEntry, hy, hx, ih]

theorem setEntry_setEntry (a : α) (b c : β) (l : List (α × β)) :
    setEntry a b (setEntry a c l) = setEntry a b l := by
  induction l with
  | nil => simp [setEntry]
  | cons p rest ih =>
    by_cases h : p.1 = a
    · simp [setEntry, h]
    · simp [setEntry, h, ih]

/-- With one entry a key, lookup and membership agree. -/
theorem findEntry_eq_some_iff (l : List (α × β)) (h : (l.map Prod.fst).Nodup) (a : α) (b : β) :
    findEntry a l = some b ↔ (a, b) ∈ l := by
  induction l with
  | nil => simp [findEntry]
  | cons p rest ih =>
    obtain ⟨y, z⟩ := p
    rw [List.map_cons, List.nodup_cons] at h
    by_cases hy : y = a
    · subst hy
      have hn : (y, b) ∉ rest := fun hw => h.1 (List.mem_map.mpr ⟨_, hw, rfl⟩)
      simp [findEntry, hn, eq_comm]
    · simp [findEntry, hy, Ne.symm hy, ih h.2]

end Entries

namespace Dict

variable [DecidableEq α]

def empty : Dict α β := ⟨[], List.nodup_nil⟩

instance : Inhabited (Dict α β) := ⟨empty⟩

def get? (d : Dict α β) (a : α) : Option β := findEntry a d.entries

def getD (d : Dict α β) (a : α) (b : β) : β := (d.get? a).getD b

def set (d : Dict α β) (a : α) (b : β) : Dict α β :=
  ⟨setEntry a b d.entries, nodup_setEntry a b d.entries d.nodup⟩

def keys (d : Dict α β) : List α := d.entries.map Prod.fst

@[simp] theorem get?_empty (a : α) : (empty : Dict α β).get? a = none := rfl

theorem get?_set (d : Dict α β) (a x : α) (b : β) :
    (d.set a b).get? x = if x = a then some b else d.get? x := findEntry_setEntry a x b d.entries

@[simp] theorem get?_set_same (d : Dict α β) (a : α) (b : β) : (d.set a b).get? a = some b := by
  simp [get?_set]

theorem get?_set_other (d : Dict α β) (a x : α) (b : β) (h : x ≠ a) :
    (d.set a b).get? x = d.get? x := by simp [get?_set, h]

@[simp] theorem set_set (d : Dict α β) (a : α) (b c : β) : (d.set a b).set a c = d.set a c := by
  simp [set, setEntry_setEntry]

theorem mem_entries (d : Dict α β) (a : α) (b : β) : (a, b) ∈ d.entries ↔ d.get? a = some b :=
  (findEntry_eq_some_iff d.entries d.nodup a b).symm

theorem mem_keys (d : Dict α β) (a : α) : a ∈ d.keys ↔ ∃ b, d.get? a = some b := by
  simp [keys, mem_entries]

theorem keys_set (d : Dict α β) (a : α) (b : β) :
    (d.set a b).keys = if a ∈ d.keys then d.keys else d.keys ++ [a] := by
  by_cases h : a ∈ d.keys
  · rw [if_pos h]
    exact keys_setEntry h
  · rw [if_neg h]
    exact (congrArg (List.map Prod.fst) (setEntry_of_notMem b h)).trans List.map_append

theorem getD_of_get? {d : Dict α β} {a : α} {b c : β} (h : d.get? a = some b) : d.getD a c = b := by
  simp [getD, h]

/-- A loop over a dictionary visits its keys in their order. -/
theorem flatMap_entries (d : Dict α β) (b : β) (f : α → β → List σ) :
    d.entries.flatMap (fun p => f p.1 p.2) = d.keys.flatMap (fun a => f a (d.getD a b)) := by
  rw [keys, List.flatMap_map]
  refine List.flatMap_congr (fun p hp => ?_)
  rw [getD_of_get? ((d.mem_entries p.1 p.2).mp hp)]

/-- `for a, b in l: d[a] = b`, all keys new. -/
theorem entries_setAll {l : List (α × β)} {d : Dict α β}
    (h : ((d.entries ++ l).map Prod.fst).Nodup) :
    (l.foldl (fun d p => d.set p.1 p.2) d).entries = d.entries ++ l := by
  induction l generalizing d with
  | nil => simp
  | cons p l ih =>
    have hp : p.1 ∉ d.entries.map Prod.fst := by
      rw [List.map_append, List.map_cons, List.nodup_middle, List.nodup_cons] at h
      exact fun hm => h.1 (List.mem_append_left _ hm)
    have hset : (d.set p.1 p.2).entries = d.entries ++ [p] := setEntry_of_notMem p.2 hp
    rw [List.foldl_cons, ih (by simpa [hset] using h), hset, List.append_assoc,
      List.singleton_append]

section Nested

variable {γ : Type} [DecidableEq γ]

/-- `d[a][c]`, absent when either key is. -/
def get2? (d : Dict α (Dict γ β)) (a : α) (c : γ) : Option β := (d.get? a).bind (·.get? c)

/-- `d[a][c] = b`, creating the inner dictionary when it is missing. -/
def set2 (d : Dict α (Dict γ β)) (a : α) (c : γ) (b : β) : Dict α (Dict γ β) :=
  d.set a ((d.getD a empty).set c b)

@[simp] theorem get2?_empty (a : α) (c : γ) : (empty : Dict α (Dict γ β)).get2? a c = none := rfl

theorem get2?_set2 (d : Dict α (Dict γ β)) (a x : α) (c y : γ) (b : β) :
    (d.set2 a c b).get2? x y = if x = a ∧ y = c then some b else d.get2? x y := by
  by_cases hx : x = a
  · subst hx
    cases hd : d.get? x <;> by_cases hy : y = c <;> simp [get2?, set2, getD, get?_set, hd, hy]
  · simp [get2?, set2, get?_set_other _ _ _ _ hx, hx]

theorem get2?_eq_some {d : Dict α (Dict γ β)} {a : α} {c : γ} {b : β} :
    d.get2? a c = some b ↔ ∃ e, (a, e) ∈ d.entries ∧ (c, b) ∈ e.entries := by
  simp [get2?, Option.bind_eq_some_iff, mem_entries]

/-- Outer and inner keys stand in the order in which the pairs `l` came first. -/
structure Visits (d : Dict α (Dict γ β)) (l : List (α × γ)) : Prop where
  outer : d.keys = (l.map Prod.fst).eraseDups
  inner : ∀ a, (d.getD a empty).keys = ((l.filter (fun p => p.1 = a)).map Prod.snd).eraseDups

theorem visits_empty : (empty : Dict α (Dict γ β)).Visits [] := ⟨rfl, fun _ => rfl⟩

theorem visits_set2 {d : Dict α (Dict γ β)} {l : List (α × γ)} (h : d.Visits l) (p : α × γ)
    (b : β) : (d.set2 p.1 p.2 b).Visits (l ++ [p]) := by
  constructor
  · rw [List.map_append, List.map_singleton, eraseDups_concat, ← h.outer, set2, keys_set]
  · intro a
    by_cases ha : p.1 = a
    · subst ha
      rw [set2, getD, get?_set_same, Option.getD_some, keys_set, h.inner, List.filter_append,
        List.map_append]
      simp [eraseDups_concat]
    · have hi := h.inner a
      rw [getD] at hi
      rw [set2, getD, get?_set_other _ _ _ _ (Ne.symm ha), hi, List.filter_append]
      simp [ha]

/-- Two nested loops over a dictionary visit the pairs in their groups. -/
theorem Visits.flatMap_entries {d : Dict α (Dict γ β)} {l : List (α × γ)} (h : d.Visits l) (b : β)
    (f : α → γ × β → List σ) :
    d.entries.flatMap (fun p => p.2.entries.flatMap (f p.1)) =
      (grouped l).flatMap (fun p => f p.1 (p.2, (d.get2? p.1 p.2).getD b)) := by
  have hinner : ∀ a (e : Dict γ β),
      e.entries.flatMap (f a) = e.keys.flatMap (fun c => f a (c, e.getD c b)) :=
    fun a e => Dict.flatMap_entries e b (fun c b => f a (c, b))
  simp only [hinner]
  rw [Dict.flatMap_entries d empty (fun a e => e.keys.flatMap (fun c => f a (c, e.getD c b))),
    h.outer, grouped, List.flatMap_assoc]
  refine List.flatMap_congr (fun a _ => ?_)
  rw [h.inner, List.flatMap_map]
  refine List.flatMap_congr (fun c _ => ?_)
  cases hd : d.get? a <;> simp [get2?, getD, hd]

end Nested

section Sets

variable {γ : Type} [DecidableEq β]

/-- `for c in l: d[a].add(f(c))`, on a dictionary of sets. -/
theorem mem_addAll (d : Dict α (List β)) (a x : α) (f : γ → β) (l : List γ) (b : β) :
    b ∈ (l.foldl (fun d c => d.set a ((d.getD a []).insert (f c))) d).getD x [] ↔
      b ∈ d.getD x [] ∨ (x = a ∧ ∃ c ∈ l, b = f c) := by
  induction l generalizing d with
  | nil => simp
  | cons c l ih =>
    rw [List.foldl_cons, ih]
    by_cases hx : x = a
    · subst hx
      simp only [getD, get?_set_same, Option.getD_some, List.mem_insert_iff, List.mem_cons,
        exists_eq_or_imp, true_and]
      tauto
    · simp [getD, get?_set_other _ _ _ _ hx, hx]

theorem nodup_addAll {d : Dict α (List β)} (hd : ∀ x, (d.getD x []).Nodup) (a x : α) (f : γ → β)
    (l : List γ) :
    ((l.foldl (fun d c => d.set a ((d.getD a []).insert (f c))) d).getD x []).Nodup := by
  induction l generalizing d with
  | nil => exact hd x
  | cons c l ih =>
    refine ih (d := d.set a ((d.getD a []).insert (f c))) (fun y => ?_)
    by_cases hy : y = a
    · subst hy
      simpa [getD] using (hd y).insert (a := f c)
    · simpa [getD, get?_set_other _ _ _ _ hy] using hd y

end Sets

end Dict

/-- Sequencing succeeds exactly when both computations do. -/
theorem bind_eq_ok {x : Except ε α} {f : α → Except ε β} {b : β} :
    (x >>= f) = .ok b ↔ ∃ a, x = .ok a ∧ f a = .ok b := by
  cases x with
  | error e => simp [bind, Except.bind]
  | ok a => simp [bind, Except.bind]

theorem bind_eq_error {x : Except ε α} {f : α → Except ε β} {e : ε} :
    (x >>= f) = .error e ↔ x = .error e ∨ ∃ a, x = .ok a ∧ f a = .error e := by
  cases x with
  | error e => simp [bind, Except.bind]
  | ok a => simp [bind, Except.bind]

@[simp] theorem ok_bind (a : α) (f : α → Except ε β) : (Except.ok a >>= f) = f a := rfl
@[simp] theorem error_bind (e : ε) (f : α → Except ε β) : (Except.error e >>= f) = .error e := rfl

/-- What each completed iteration preserves, a completed loop preserves. -/
theorem foldlM_invariant {f : σ → α → Except ε σ} (I : σ → Prop) {l : List α}
    (step : ∀ s a s', a ∈ l → I s → f s a = .ok s' → I s')
    {s s' : σ} (hs : I s) (h : l.foldlM f s = .ok s') : I s' := by
  induction l generalizing s with
  | nil => cases h; exact hs
  | cons a l ih =>
    rw [List.foldlM_cons, bind_eq_ok] at h
    obtain ⟨t, ht, hl⟩ := h
    have hI := step s a t List.mem_cons_self hs ht
    exact ih (fun s b s' hb => step s b s' (List.mem_cons_of_mem a hb)) hI hl

/-- The same with an invariant that counts the iterations. -/
theorem foldlM_indexed {f : σ → α → Except ε σ} (I : Nat → σ → Prop) {l : List α}
    (step : ∀ n s a s', l[n]? = some a → I n s → f s a = .ok s' → I (n + 1) s')
    {s s' : σ} (hs : I 0 s) (h : l.foldlM f s = .ok s') : I l.length s' := by
  induction l generalizing s I with
  | nil => cases h; exact hs
  | cons a l ih =>
    rw [List.foldlM_cons, bind_eq_ok] at h
    obtain ⟨t, ht, hl⟩ := h
    exact ih (fun n => I (n + 1)) (fun n s b s' hb => step (n + 1) s b s' hb)
      (step 0 s a t rfl hs ht) hl

/-- The same with an invariant about the iterations that are done. -/
theorem foldlM_prefix {f : σ → α → Except ε σ} (I : List α → σ → Prop) {l : List α}
    (step : ∀ done a rest s s', l = done ++ a :: rest → I done s → f s a = .ok s' →
      I (done ++ [a]) s')
    {s s' : σ} (hs : I [] s) (h : l.foldlM f s = .ok s') : I l s' := by
  induction l generalizing s I with
  | nil => cases h; exact hs
  | cons a l ih =>
    rw [List.foldlM_cons, bind_eq_ok] at h
    obtain ⟨t, ht, hl⟩ := h
    refine ih (fun done => I (a :: done)) (fun done b rest s s' he => ?_)
      (step [] a l s t rfl hs ht) hl
    exact step (a :: done) b rest s s' (by rw [he, List.cons_append])

/-- A loop completes when every iteration does from a state with the invariant. -/
theorem foldlM_total {f : σ → α → Except ε σ} (I : σ → Prop) {l : List α}
    (step : ∀ s a, a ∈ l → I s → ∃ s', f s a = .ok s' ∧ I s') {s : σ} (hs : I s) :
    ∃ s', l.foldlM f s = .ok s' ∧ I s' := by
  induction l generalizing s with
  | nil => exact ⟨s, rfl, hs⟩
  | cons a l ih =>
    obtain ⟨t, ht, hI⟩ := step s a List.mem_cons_self hs
    obtain ⟨s', hs', hI'⟩ := ih (fun s b hb => step s b (List.mem_cons_of_mem a hb)) hI
    exact ⟨s', by rw [List.foldlM_cons, ht, ok_bind, hs'], hI'⟩

/-- A completed loop completed the iteration of every element. -/
theorem foldlM_each {f : σ → α → Except ε σ} {l : List α} {s s' : σ} (h : l.foldlM f s = .ok s') :
    ∀ a ∈ l, ∃ t t', f t a = .ok t' := by
  induction l generalizing s with
  | nil => intro a ha; cases ha
  | cons b l ih =>
    rw [List.foldlM_cons, bind_eq_ok] at h
    obtain ⟨t, ht, hl⟩ := h
    intro a ha
    rcases List.mem_cons.mp ha with rfl | ha
    · exact ⟨s, t, ht⟩
    · exact ih hl a ha

/-- A loop whose body loops over `script a` is a loop over all of them, as long
as the invariant that the bodies agree on is kept. -/
theorem foldlM_eq_flatMap {f : σ → α → Except ε σ} {g : σ → β → Except ε σ} {script : α → List β}
    (I : σ → Prop) {l : List α} (h : ∀ a ∈ l, ∀ s, I s → f s a = (script a).foldlM g s)
    (hI : ∀ a ∈ l, ∀ b ∈ script a, ∀ s s', I s → g s b = .ok s' → I s') {s : σ} (hs : I s) :
    l.foldlM f s = (l.flatMap script).foldlM g s := by
  induction l generalizing s with
  | nil => rfl
  | cons a l ih =>
    rw [List.foldlM_cons, List.flatMap_cons, List.foldlM_append, h a List.mem_cons_self s hs]
    cases hr : (script a).foldlM g s with
    | error e => rfl
    | ok s' =>
      refine ih (fun b hb => h b (List.mem_cons_of_mem a hb))
        (fun b hb => hI b (List.mem_cons_of_mem a hb)) ?_
      exact foldlM_invariant I (fun s b s' hb => hI a List.mem_cons_self b hb s s') hs hr

section Prefixes

/-- An element that is reached in a concatenation is reached in one of its parts. -/
theorem concat_prefix_append {pre : List α} {x : α} {l l' : List α}
    (h : pre ++ [x] <+: l ++ l') :
    pre ++ [x] <+: l ∨ ∃ pre', pre = l ++ pre' ∧ pre' ++ [x] <+: l' := by
  rcases List.prefix_or_prefix_of_prefix h (List.prefix_append l l') with hl | ⟨t, ht⟩
  · exact .inl hl
  · rcases List.eq_nil_or_concat' t with rfl | ⟨pre', y, rfl⟩
    · rw [List.append_nil] at ht
      exact .inl (ht ▸ List.prefix_refl _)
    · rw [← List.append_assoc] at ht
      obtain ⟨rfl, hy⟩ := List.append_inj' ht rfl
      refine .inr ⟨pre', rfl, ?_⟩
      rw [← hy, List.append_assoc, List.prefix_append_right_inj] at h
      cases hy
      exact h

/-- Nested loops reach an element in one iteration, behind all earlier ones. -/
theorem concat_prefix_flatMap {f : α → List β} {l : List α} {pre : List β} {x : β}
    (h : pre ++ [x] <+: l.flatMap f) :
    ∃ done a pre', done ++ [a] <+: l ∧ pre' ++ [x] <+: f a ∧ pre = done.flatMap f ++ pre' := by
  induction l generalizing pre with
  | nil => simp at h
  | cons a l ih =>
    rw [List.flatMap_cons] at h
    rcases concat_prefix_append h with ha | ⟨pre₁, rfl, hl⟩
    · exact ⟨[], a, pre, by simp, ha, rfl⟩
    · obtain ⟨done, b, pre', hb, hx, rfl⟩ := ih hl
      refine ⟨a :: done, b, pre', ?_, hx, by simp⟩
      simpa using hb

theorem prefix_flatMap {f : α → List β} {l done : List α} {a : α} {pre : List β}
    (hl : done ++ [a] <+: l) (hp : pre <+: f a) : done.flatMap f ++ pre <+: l.flatMap f := by
  refine List.IsPrefix.trans ?_ (hl.flatMap f)
  rw [List.flatMap_append, List.flatMap_singleton, List.prefix_append_right_inj]
  exact hp

end Prefixes

/-- What a loop without exceptions makes true, step by step. -/
theorem foldl_iff {f : σ → α → σ} (Q : σ → Prop) (P : α → Prop) {l : List α}
    (h : ∀ s, ∀ a ∈ l, (Q (f s a) ↔ Q s ∨ P a)) (s : σ) : Q (l.foldl f s) ↔ Q s ∨ ∃ a ∈ l, P a := by
  induction l generalizing s with
  | nil => simp
  | cons a l ih =>
    rw [List.foldl_cons, ih (fun s b hb => h s b (List.mem_cons_of_mem a hb)),
      h s a List.mem_cons_self, List.exists_mem_cons_iff, or_assoc]

/-- A comprehension whose body always completes. -/
theorem mapM_spec {f : α → Except ε β} {l : List α} (h : ∀ a ∈ l, ∃ b, f a = .ok b) :
    ∃ bs, l.mapM f = .ok bs ∧ ∀ b, b ∈ bs ↔ ∃ a ∈ l, f a = .ok b := by
  induction l with
  | nil => exact ⟨[], rfl, by simp⟩
  | cons a l ih =>
    obtain ⟨b, hb⟩ := h a List.mem_cons_self
    obtain ⟨bs, hbs, hm⟩ := ih (fun c hc => h c (List.mem_cons_of_mem a hc))
    refine ⟨b :: bs, by rw [List.mapM_cons, hb, ok_bind, hbs]; rfl, fun c => ?_⟩
    simp [hm, hb, eq_comm]

theorem mapM_eq_map {f : α → Except ε β} {g : α → β} {l : List α} (h : ∀ a ∈ l, f a = .ok (g a)) :
    l.mapM f = .ok (l.map g) := by
  induction l with
  | nil => rfl
  | cons a l ih =>
    rw [List.mapM_cons, h a List.mem_cons_self, ok_bind,
      ih (fun b hb => h b (List.mem_cons_of_mem a hb))]
    rfl

/-- A failed loop completed the iterations before the one that raised. -/
theorem foldlM_error_iff {f : σ → α → Except ε σ} {l : List α} {s : σ} {e : ε} :
    l.foldlM f s = .error e ↔
    ∃ done a rest t, l = done ++ a :: rest ∧ done.foldlM f s = .ok t ∧ f t a = .error e := by
  constructor
  · intro h
    induction l generalizing s with
    | nil => cases h
    | cons b l ih =>
      rw [List.foldlM_cons, bind_eq_error] at h
      rcases h with hb | ⟨t, ht, hl⟩
      · exact ⟨[], b, l, s, rfl, rfl, hb⟩
      · obtain ⟨done, a, rest, u, rfl, hdone, ha⟩ := ih hl
        exact ⟨b :: done, a, rest, u, rfl, by rw [List.foldlM_cons, ht, ok_bind, hdone], ha⟩
  · rintro ⟨done, a, rest, t, rfl, hdone, ha⟩
    rw [List.foldlM_append, hdone, ok_bind, List.foldlM_cons, ha, error_bind]

/-- The exception of a failed loop was raised by one of its iterations. -/
theorem foldlM_error {f : σ → α → Except ε σ} {l : List α} {s : σ} {e : ε}
    (h : l.foldlM f s = .error e) :
    ∃ a ∈ l, ∃ t, f t a = .error e := by
  obtain ⟨done, a, rest, t, rfl, _, ha⟩ := foldlM_error_iff.mp h
  exact ⟨a, List.mem_append_right done List.mem_cons_self, t, ha⟩

section While

/-- A computation without `while` loops, among those that may run out of fuel. -/
def fueled (x : Except ε α) : ExceptT ε Option α := ExceptT.mk (some x)

@[simp] theorem fueled_ok_bind (a : α) (f : α → ExceptT ε Option β) :
    (fueled (.ok a) >>= f) = f a := rfl
@[simp] theorem fueled_error_bind (e : ε) (f : α → ExceptT ε Option β) :
    (fueled (.error e) >>= f) = fueled (.error e) := rfl

/-- `while cond: body`, for at most `fuel` tests of the condition. -/
def whileLoop (cond : σ → Bool) (body : σ → Except ε σ) : Nat → σ → ExceptT ε Option σ
  | 0, _ => ExceptT.mk none
  | fuel + 1, s => if cond s then fueled (body s) >>= whileLoop cond body fuel else fueled (.ok s)

/-- A loop ends when its iterations keep an invariant and decrease a measure. -/
theorem whileLoop_total (cond : σ → Bool) (body : σ → Except ε σ) (I : σ → Prop) (μ : σ → Nat)
    (step : ∀ s, I s → cond s = true → ∃ s', body s = .ok s' ∧ I s' ∧ μ s' < μ s) {s : σ} (hs : I s)
    {fuel : Nat} (hf : μ s < fuel) :
    ∃ s', whileLoop cond body fuel s = fueled (.ok s') ∧ I s' ∧ cond s' = false := by
  induction fuel generalizing s with
  | zero => omega
  | succ fuel ih =>
    by_cases hc : cond s = true
    · obtain ⟨t, ht, hI, hlt⟩ := step s hs hc
      obtain ⟨s', h', hI', hc'⟩ := ih hI (by omega)
      exact ⟨s', by rw [whileLoop, if_pos hc, ht, fueled_ok_bind, h'], hI', hc'⟩
    · exact ⟨s, by rw [whileLoop, if_neg hc], hs, by simpa using hc⟩

/-- `y` gives the answer of `x`, where `x` has not run out of fuel. -/
def Extends (x y : ExceptT ε Option α) : Prop := ∀ r, x.run = some r → y.run = some r

theorem Extends.refl (x : ExceptT ε Option α) : Extends x x := fun _ h => h

theorem Extends.bind {x y : ExceptT ε Option α} {f g : α → ExceptT ε Option β} (h : Extends x y)
    (hf : ∀ a, Extends (f a) (g a)) : Extends (x >>= f) (y >>= g) := by
  intro r hr
  rw [ExceptT.run_bind] at hr ⊢
  cases hx : x.run with
  | none =>
    rw [hx] at hr
    cases hr
  | some a =>
    rw [hx] at hr
    rw [h a hx]
    cases a with
    | error e => exact hr
    | ok a => exact hf a r hr

/-- More fuel does not change the answer of a loop. -/
theorem extends_whileLoop (cond : σ → Bool) (body : σ → Except ε σ) {fuel fuel' : Nat}
    (h : fuel ≤ fuel')
    (s : σ) : Extends (whileLoop cond body fuel s) (whileLoop cond body fuel' s) := by
  induction fuel generalizing fuel' s with
  | zero => exact nofun
  | succ fuel ih =>
    obtain ⟨fuel', rfl⟩ := Nat.exists_eq_succ_of_ne_zero (Nat.ne_of_gt (Nat.zero_lt_of_lt h))
    rw [whileLoop, whileLoop]
    split
    · exact (Extends.refl _).bind (fun s => ih (Nat.le_of_succ_le_succ h) s)
    · exact .refl _

end While

end Py
