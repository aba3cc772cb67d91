import Mathlib.Data.List.Basic

/-!
# Lines and decimals

Text is a list of characters. What is written as a decimal, or as a list of
lines, is read back.
-/
namespace Text

/-- `"%d" % n` -/
def decimal : Int → List Char
  | .ofNat n => Nat.toDigits 10 n
  | .negSucc n => '-' :: Nat.toDigits 10 (n + 1)

/-- Digits, in groups that single underscores separate. -/
def parseNat (cs : List Char) : Option Nat :=
  let groups := cs.splitOn '_'
  if groups.all (fun g => !g.isEmpty && g.all Char.isDigit)
    then some (Nat.ofDigitChars 10 groups.flatten 0) else none

def strip (cs : List Char) : List Char :=
  ((cs.dropWhile Char.isWhitespace).reverse.dropWhile Char.isWhitespace).reverse

/-- `int(...)`, for the ASCII digits. -/
def parseInt (cs : List Char) : Option Int :=
  match strip cs with
  | '-' :: ds => (parseNat ds).map fun n => -(n : Int)
  | '+' :: ds => (parseNat ds).map fun n => (n : Int)
  | ds => (parseNat ds).map fun n => (n : Int)

/-- `f.readlines()`; the line breaks stay. -/
def readlines : List Char → List (List Char)
  | [] => []
  | c :: cs =>
    if c = '\n' then [c] :: readlines cs
    else
      match readlines cs with
      | [] => [[c]]
      | line :: lines => (c :: line) :: lines

theorem isDigit_of_mem_digits {n : Nat} {c : Char} (h : c ∈ Nat.toDigits 10 n) : c.isDigit = true :=
  Nat.isDigit_of_mem_toDigits (by decide) (by decide) h

theorem isDigit_of_mem_decimal {n : Int} {c : Char} (h : c ∈ decimal n) :
    c.isDigit = true ∨ c = '-' := by
  cases n with
  | ofNat n => exact .inl (isDigit_of_mem_digits h)
  | negSucc n =>
    rcases List.mem_cons.mp h with rfl | h
    · exact .inr rfl
    · exact .inl (isDigit_of_mem_digits h)

/-- A character that is neither a digit nor a sign does not occur in a decimal. -/
theorem not_mem_decimal {c : Char} (hd : c.isDigit = false) (hs : c ≠ '-') (n : Int) :
    c ∉ decimal n := by
  intro h
  rcases isDigit_of_mem_decimal h with hc | hc
  · rw [hd] at hc
    cases hc
  · exact hs hc

theorem parseNat_digits (n : Nat) : parseNat (Nat.toDigits 10 n) = some n := by
  have hsplit : (Nat.toDigits 10 n).splitOn '_' = [Nat.toDigits 10 n] :=
    List.splitOn_eq_singleton Nat.underscore_not_in_toDigits
  have hall : (Nat.toDigits 10 n).all Char.isDigit = true :=
    List.all_eq_true.mpr (fun c hc => isDigit_of_mem_digits hc)
  have hne : (Nat.toDigits 10 n).isEmpty = false := by
    rw [List.isEmpty_eq_false_iff]
    exact Nat.toDigits_ne_nil
  simp [parseNat, hsplit, hall, hne]

theorem not_isWhitespace_of_mem_decimal {n : Int} {c : Char} (h : c ∈ decimal n) :
    c.isWhitespace = false := by
  rcases isDigit_of_mem_decimal h with hc | rfl
  · by_contra hw
    rw [Bool.not_eq_false] at hw
    simp only [Char.isWhitespace, Bool.or_eq_true, decide_eq_true_eq] at hw
    rcases hw with ((rfl | rfl) | rfl) | rfl <;> exact absurd hc (by decide)
  · rfl

theorem decimal_ne_nil (n : Int) : decimal n ≠ [] := by
  cases n with
  | ofNat n => exact Nat.toDigits_ne_nil
  | negSucc n => exact List.cons_ne_nil _ _

/-- Blanks behind a decimal are stripped. -/
theorem strip_decimal (n : Int) {blanks : List Char} (hb : ∀ c ∈ blanks, c.isWhitespace = true) :
    strip (decimal n ++ blanks) = decimal n := by
  have hfront : (decimal n ++ blanks).dropWhile Char.isWhitespace = decimal n ++ blanks := by
    cases hn : decimal n with
    | nil => exact absurd hn (decimal_ne_nil n)
    | cons c cs =>
      have hc : c.isWhitespace = false :=
        not_isWhitespace_of_mem_decimal (n := n) (by rw [hn]; exact List.mem_cons_self)
      rw [List.cons_append, List.dropWhile_cons, hc]
      rfl
  have hback : (blanks.reverse ++ (decimal n).reverse).dropWhile Char.isWhitespace =
      (decimal n).reverse := by
    rw [List.dropWhile_append_of_pos (fun c hc => hb c (List.mem_reverse.mp hc))]
    cases hn : (decimal n).reverse with
    | nil => rfl
    | cons c cs =>
      have hc : c.isWhitespace = false := not_isWhitespace_of_mem_decimal (n := n) (by
        rw [← List.mem_reverse, hn]
        exact List.mem_cons_self)
      rw [List.dropWhile_cons, hc]
      rfl
  rw [strip, hfront, List.reverse_append, hback, List.reverse_reverse]

/-- What is written as a decimal is read back, with blanks behind it. -/
theorem parseInt_decimal (n : Int) {blanks : List Char} (hb : ∀ c ∈ blanks, c.isWhitespace = true) :
    parseInt (decimal n ++ blanks) = some n := by
  rw [parseInt, strip_decimal n hb]
  cases n with
  | ofNat n =>
    cases hn : Nat.toDigits 10 n with
    | nil => exact absurd hn Nat.toDigits_ne_nil
    | cons c cs =>
      have hc : c.isDigit = true :=
        isDigit_of_mem_digits (n := n) (by rw [hn]; exact List.mem_cons_self)
      have hparse := parseNat_digits n
      rw [hn] at hparse
      have hdec : decimal (Int.ofNat n) = c :: cs := hn
      rw [hdec]
      split
      · rename_i he
        cases he
        cases hc
      · rename_i he
        cases he
        cases hc
      · rw [hparse]
        rfl
  | negSucc n =>
    simp only [decimal, parseNat_digits]
    rfl

theorem readlines_line {line : List Char} (h : '\n' ∉ line) (rest : List Char) :
    readlines (line ++ '\n' :: rest) = (line ++ ['\n']) :: readlines rest := by
  induction line with
  | nil => rfl
  | cons c line ih =>
    have hc : c ≠ '\n' := fun he => h (he ▸ List.mem_cons_self)
    rw [List.cons_append, readlines, if_neg hc, ih (fun hm => h (List.mem_cons_of_mem c hm))]
    rfl

/-- Lines are read back. -/
theorem readlines_flatMap {lines : List (List Char)} (h : ∀ line ∈ lines, '\n' ∉ line) :
    readlines (lines.flatMap (· ++ ['\n'])) = lines.map (· ++ ['\n']) := by
  induction lines with
  | nil => rfl
  | cons line lines ih =>
    rw [List.flatMap_cons, List.append_assoc, List.singleton_append,
      readlines_line (h line List.mem_cons_self),
      ih (fun l hl => h l (List.mem_cons_of_mem line hl)), List.map_cons]

end Text
