import Mathlib.Algebra.Order.Ring.Int
import Mathlib.Data.List.Basic
import Mathlib.Tactic.Common

/-! Texts: lines, words and numbers, as the C++ library reads them.

A string is its list of characters. `getlines` is what repeated `std::getline`
returns, `words` what repeated `>>` into a string returns; `fromChars`, `stoi`
and `stoull` are the three number parsers, which all read a prefix and differ in
the signs they take, in their range and in how they fail. `decimal` prints. -/
namespace CustomIsaVm

/-- A string. -/
abbrev Str := List Char

namespace Text

/-! ### Lines -/

/-- The lines `std::getline` returns one after another: a newline ends a line,
and the text after the last newline is a line only if it is not empty. -/
def getlines : Str → List Str
  | [] => []
  | c :: rest =>
    if c = '\n' then [] :: getlines rest
    else match getlines rest with
      | [] => [[c]]
      | line :: lines => (c :: line) :: lines

def unlines (lines : List Str) : Str := lines.flatMap (· ++ ['\n'])

@[simp] theorem unlines_nil : unlines [] = [] := rfl

@[simp] theorem unlines_cons (line : Str) (lines : List Str) :
    unlines (line :: lines) = line ++ '\n' :: unlines lines := by
  simp [unlines]

theorem unlines_append (a b : List Str) : unlines (a ++ b) = unlines a ++ unlines b := by
  simp [unlines]

theorem getlines_line (line rest : Str) (h : '\n' ∉ line) :
    getlines (line ++ '\n' :: rest) = line :: getlines rest := by
  induction line with
  | nil => simp [getlines]
  | cons c line ih =>
    have hc : c ≠ '\n' := by rintro rfl; simp at h
    have hl : '\n' ∉ line := fun hm => h (List.mem_cons_of_mem c hm)
    simp [getlines, hc, ih hl]

/-- Lines that hold no newline come back as they were written. -/
theorem getlines_unlines (lines : List Str) (h : ∀ line ∈ lines, '\n' ∉ line) :
    getlines (unlines lines) = lines := by
  induction lines with
  | nil => rfl
  | cons line lines ih =>
    rw [unlines_cons, getlines_line line _ (h line (List.mem_cons_self ..)),
      ih fun l hl => h l (List.mem_cons_of_mem line hl)]

theorem newline_notin_getlines (s : Str) : ∀ line ∈ getlines s, '\n' ∉ line := by
  induction s with
  | nil => simp [getlines]
  | cons c rest ih =>
    rw [getlines]
    split
    next => simpa using ih
    next hc =>
      split
      next => simpa using Ne.symm hc
      next line lines heq =>
        rw [heq] at ih
        intro l hl
        rcases List.mem_cons.mp hl with rfl | hl
        · simpa [Ne.symm hc] using ih line (List.mem_cons_self ..)
        · exact ih l (List.mem_cons_of_mem line hl)

/-- Reading by lines drops the newlines and nothing else. -/
theorem getlines_flatten (s : Str) : (getlines s).flatten = s.filter (· ≠ '\n') := by
  induction s with
  | nil => rfl
  | cons c rest ih =>
    by_cases hc : c = '\n'
    · simp [getlines, hc, ih]
    · rw [getlines, if_neg hc, List.filter_cons_of_pos (by simpa using hc), ← ih]
      cases getlines rest <;> simp

/-! ### Words -/

/-- `std::isspace` in the "C" locale. -/
def isspace (c : Char) : Bool :=
  c == ' ' || c == '\t' || c == '\n' || c == '\x0b' || c == '\x0c' || c == '\r'

/-- The words `>>` returns one after another. -/
def words (s : Str) : List Str := (s.splitOnP isspace).filter (· ≠ [])

@[simp] theorem words_nil : words [] = [] := rfl

theorem splitOnP_word (w : Str) (hw : ∀ c ∈ w, isspace c = false) : w.splitOnP isspace = [w] := by
  induction w with
  | nil => rfl
  | cons c w ih =>
    rw [List.splitOnP_cons_eq_if_modifyHead, ih fun d hd => hw d (List.mem_cons_of_mem c hd)]
    simp [hw c (List.mem_cons_self ..)]

/-- A blank parts the words before it from the words behind it. -/
theorem words_append_space (s rest : Str) (c : Char) (hc : isspace c = true) :
    words (s ++ c :: rest) = words s ++ words rest := by
  rw [words, List.splitOnP_append_cons _ _ hc, List.filter_append]
  rfl

/-- A last word. -/
theorem words_word (w : Str) (hw : ∀ c ∈ w, isspace c = false) (hne : w ≠ []) : words w = [w] := by
  simp [words, splitOnP_word w hw, hne]

/-- A word and what follows it. -/
theorem words_word_space (w rest : Str) (c : Char) (hw : ∀ c ∈ w, isspace c = false) (hne : w ≠ [])
    (hc : isspace c = true) : words (w ++ c :: rest) = w :: words rest := by
  rw [words_append_space w rest c hc, words_word w hw hne, List.singleton_append]

/-- Blanks before a text do not matter. -/
theorem words_blanks_append {blanks : Str} (h : ∀ c ∈ blanks, isspace c = true) (s : Str) :
    words (blanks ++ s) = words s := by
  induction blanks with
  | nil => rfl
  | cons c blanks ih =>
    have htail := ih fun d hd => h d (List.mem_cons_of_mem c hd)
    exact (words_append_space [] (blanks ++ s) c (h c (List.mem_cons_self ..))).trans htail

/-- Blanks part the words before them from the words behind them. -/
theorem words_append_gap {gap : Str} (hne : gap ≠ []) (h : ∀ c ∈ gap, isspace c = true) (s rest : Str) :
    words (s ++ gap ++ rest) = words s ++ words rest := by
  obtain ⟨c, blanks, rfl⟩ := List.exists_cons_of_ne_nil hne
  rw [List.append_assoc, List.cons_append, words_append_space s _ c (h c (List.mem_cons_self ..)),
    words_blanks_append fun d hd => h d (List.mem_cons_of_mem c hd)]

/-- Nor do blanks behind it. -/
theorem words_append_blanks {blanks : Str} (h : ∀ c ∈ blanks, isspace c = true) (s : Str) :
    words (s ++ blanks) = words s := by
  by_cases hne : blanks = []
  · rw [hne, List.append_nil]
  · have := words_append_gap hne h s []
    rwa [List.append_nil, words_nil, List.append_nil] at this

theorem words_ne_nil {s w : Str} (h : w ∈ words s) : w ≠ [] := by
  simp only [words, List.mem_filter, decide_eq_true_eq] at h
  exact h.2

/-- A text is a run of non-blanks, with a blank and more text behind it unless it is
the last one. -/
theorem run_cases (s : Str) : (∀ c ∈ s, isspace c = false) ∨
    ∃ run c rest, s = run ++ c :: rest ∧ isspace c = true ∧ ∀ d ∈ run, isspace d = false := by
  induction s with
  | nil => exact .inl (by simp)
  | cons c s ih =>
    cases hc : isspace c with
    | true => exact .inr ⟨[], c, s, rfl, hc, by simp⟩
    | false =>
      rcases ih with h | ⟨run, d, rest, rfl, hd, hrun⟩
      · exact .inl (by simpa [hc] using h)
      · exact .inr ⟨c :: run, d, rest, rfl, hd, by simpa [hc] using hrun⟩

/-- The words of a run of non-blanks: itself, unless it is empty. -/
theorem words_run (run : Str) (h : ∀ c ∈ run, isspace c = false) :
    words run = if run = [] then [] else [run] := by
  split
  next hnil => rw [hnil, words_nil]
  next hne => exact words_word run h hne

theorem isspace_of_mem_words {s w : Str} (h : w ∈ words s) : ∀ c ∈ w, isspace c = false := by
  induction hn : s.length using Nat.strongRecOn generalizing s with
  | _ n ih =>
    rcases run_cases s with hs | ⟨run, c, rest, rfl, hc, hrun⟩
    · rw [words_run s hs] at h
      split at h
      · cases h
      · rwa [List.mem_singleton.mp h]
    · rw [words_append_space run rest c hc, words_run run hrun, List.mem_append] at h
      rcases h with h | h
      · split at h
        · cases h
        · rwa [List.mem_singleton.mp h]
      · exact ih rest.length (by simp at hn; omega) h rfl

/-- A text that ends in no blank ends in its last word. -/
theorem words_append_char (s : Str) {c : Char} (hc : isspace c = false) :
    ∃ above w, words (s ++ [c]) = above ++ [w ++ [c]] := by
  induction hn : s.length using Nat.strongRecOn generalizing s with
  | _ n ih =>
    rcases run_cases s with hs | ⟨run, d, rest, rfl, hd, -⟩
    · refine ⟨[], s, words_word _ (fun d hd => ?_) (by simp)⟩
      rcases List.mem_append.mp hd with hd | hd
      · exact hs d hd
      · rwa [List.mem_singleton.mp hd]
    · obtain ⟨above, w, hw⟩ := ih rest.length (by simp at hn; omega) rest rfl
      refine ⟨words run ++ above, w, ?_⟩
      rw [List.append_assoc, List.cons_append, words_append_space run _ d hd, hw, List.append_assoc]

/-- Where a substitution keeps blanks, it acts on each word alone; a word it puts
blanks into falls apart. -/
theorem words_map (f : Char → Char) (hf : ∀ c, isspace c = true → isspace (f c) = true) (s : Str) :
    words (s.map f) = (words s).flatMap fun w => words (w.map f) := by
  induction hn : s.length using Nat.strongRecOn generalizing s with
  | _ n ih =>
    rcases run_cases s with hs | ⟨run, c, rest, rfl, hc, hrun⟩
    · rw [words_run s hs]
      split
      next hnil => rw [hnil]; rfl
      next => simp
    · rw [List.map_append, List.map_cons, words_append_space _ _ _ (hf c hc),
        words_append_space run rest c hc, List.flatMap_append, words_run run hrun,
        ih rest.length (by simp at hn; omega) rest rfl]
      split
      next hnil => rw [hnil]; rfl
      next => simp

/-! ### Numbers -/

/-- `std::to_string` of a natural number. -/
def decimal (n : Nat) : Str := Nat.toDigits 10 n

/-- `std::format("\x7b\x7d", v)`. -/
def decimalInt (v : Int) : Str := if v < 0 then '-' :: decimal v.natAbs else decimal v.natAbs

def digits (s : Str) : Str := s.takeWhile Char.isDigit

/-- The value of the digits a text begins with. -/
def number (s : Str) : Nat := Nat.ofDigitChars 10 (digits s) 0

inductive ParseError where
  | invalidArgument
  | outOfRange
  deriving DecidableEq, Repr

/-- `std::from_chars` into an `int`: a minus sign at most, then digits; `none`
where it reports an error. -/
def fromChars : Str → Option Int
  | '-' :: t =>
    if digits t = [] ∨ 2147483648 < number t then none else some (-(number t : Int))
  | t => if digits t = [] ∨ 2147483647 < number t then none else some (number t : Int)

/-- The sign and the rest, as `strtol` and `strtoull` read them: blanks are
skipped, a plus or a minus sign is taken. -/
def signed (s : Str) : Bool × Str :=
  match s.dropWhile isspace with
  | '-' :: t => (true, t)
  | '+' :: t => (false, t)
  | t => (false, t)

/-- `std::stoi`. -/
def stoi (s : Str) : Except ParseError Int :=
  let (negative, t) := signed s
  if digits t = [] then .error .invalidArgument
  else
    let v : Int := if negative then -(number t : Int) else number t
    if v < -2147483648 ∨ 2147483647 < v then .error .outOfRange else .ok v

/-- `std::stoull`: a minus sign negates modulo 2^64. -/
def stoull (s : Str) : Except ParseError Nat :=
  let (negative, t) := signed s
  if digits t = [] then .error .invalidArgument
  else if 2 ^ 64 ≤ number t then .error .outOfRange
  else .ok (if negative then (2 ^ 64 - number t) % 2 ^ 64 else number t)

theorem decimal_ne_nil (n : Nat) : decimal n ≠ [] := Nat.toDigits_ne_nil

theorem isDigit_of_mem_decimal {n : Nat} {c : Char} (h : c ∈ decimal n) : c.isDigit = true :=
  Nat.isDigit_of_mem_toDigits (by decide) (by decide) h

theorem isspace_of_isDigit {c : Char} (h : c.isDigit = true) : isspace c = false := by
  simp only [Char.isDigit, Bool.and_eq_true, decide_eq_true_eq] at h
  simp only [isspace, Bool.or_eq_false_iff, beq_eq_false_iff_ne, ne_eq]
  refine ⟨⟨⟨⟨⟨?_, ?_⟩, ?_⟩, ?_⟩, ?_⟩, ?_⟩ <;> (rintro rfl; exact absurd h.1 (by decide))

/-- A printed number begins with its digits, whatever other text follows it. -/
theorem digits_decimal_append (n : Nat) (t : Str) (ht : ∀ c ∈ t.head?, c.isDigit = false) :
    digits (decimal n ++ t) = decimal n := by
  rw [digits, List.takeWhile_append_of_pos fun c hc => isDigit_of_mem_decimal hc]
  cases t with
  | nil => simp
  | cons c t => simp [ht c rfl]

@[simp] theorem digits_decimal (n : Nat) : digits (decimal n) = decimal n := by
  simpa using digits_decimal_append n [] (by simp)

theorem number_decimal_append (n : Nat) (t : Str) (ht : ∀ c ∈ t.head?, c.isDigit = false) :
    number (decimal n ++ t) = n := by
  rw [number, digits_decimal_append n t ht]
  exact Nat.ofDigitChars_ten_toDigits

@[simp] theorem number_decimal (n : Nat) : number (decimal n) = n := by
  simpa using number_decimal_append n [] (by simp)

theorem decimal_injective {m n : Nat} (h : decimal m = decimal n) : m = n := by
  have := congrArg number h
  simpa using this

theorem exists_decimal_cons (n : Nat) : ∃ c t, decimal n = c :: t ∧ c.isDigit = true := by
  cases h : decimal n with
  | nil => exact absurd h (decimal_ne_nil n)
  | cons c t => exact ⟨c, t, rfl, isDigit_of_mem_decimal (n := n) (by rw [h]; exact List.mem_cons_self ..)⟩

/-- The head of a printed number is not a sign. -/
theorem decimal_append_ne {n : Nat} {t u : Str} {c : Char} (hc : c.isDigit = false) :
    decimal n ++ t ≠ c :: u := by
  intro h
  obtain ⟨d, r, hd, hdig⟩ := exists_decimal_cons n
  rw [hd] at h
  simp only [List.cons_append, List.cons.injEq] at h
  rw [h.1, hc] at hdig
  cases hdig

theorem fromChars_of_not_minus {s : Str} (h : ∀ t, s ≠ '-' :: t) :
    fromChars s = if digits s = [] ∨ 2147483647 < number s then none else some (number s : Int) := by
  unfold fromChars
  split
  · exact absurd rfl (h _)
  · rfl

/-- Parsing what was printed, with other text behind it. -/
theorem fromChars_decimal_append (n : Nat) (t : Str) (ht : ∀ c ∈ t.head?, c.isDigit = false) :
    fromChars (decimal n ++ t) = if 2147483647 < n then none else some (n : Int) := by
  rw [fromChars_of_not_minus fun u => decimal_append_ne (by decide), digits_decimal_append n t ht,
    number_decimal_append n t ht]
  simp [decimal_ne_nil]

theorem fromChars_decimal (n : Nat) :
    fromChars (decimal n) = if 2147483647 < n then none else some (n : Int) := by
  simpa using fromChars_decimal_append n [] (by simp)

theorem fromChars_minus_decimal (n : Nat) :
    fromChars ('-' :: decimal n) = if 2147483648 < n then none else some (-(n : Int)) := by
  simp [fromChars, decimal_ne_nil]

theorem signed_of_isDigit {c : Char} (u : Str) (hc : c.isDigit = true) :
    signed (c :: u) = (false, c :: u) := by
  have hspace : isspace c = false := isspace_of_isDigit hc
  simp only [signed, List.dropWhile_cons, hspace, Bool.false_eq_true, if_false]
  split
  · rename_i heq
    injection heq with h1 h2
    subst h1
    exact absurd hc (by decide)
  · rename_i heq
    injection heq with h1 h2
    subst h1
    exact absurd hc (by decide)
  · rfl

/-- A text `from_chars` reads as a number is read as the same number by `stoi`. -/
theorem stoi_of_fromChars {s : Str} {v : Int} (h : fromChars s = some v) : stoi s = .ok v := by
  unfold fromChars at h
  split at h
  · rename_i t
    split at h
    · cases h
    · rename_i hcond
      push Not at hcond
      cases h
      have hs : signed ('-' :: t) = (true, t) := by simp [signed, isspace]
      simp only [stoi, hs, hcond.1, if_false, if_true]
      rw [if_neg (by omega)]
  · rename_i hnot
    split at h
    · cases h
    · rename_i hcond
      push Not at hcond
      cases h
      obtain ⟨c, u, rfl, hc⟩ : ∃ c u, s = c :: u ∧ c.isDigit = true := by
        cases s with
        | nil => exact absurd rfl hcond.1
        | cons c u =>
          refine ⟨c, u, rfl, ?_⟩
          by_contra hd
          exact hcond.1 (by simp [digits, hd])
      have hs := signed_of_isDigit u hc
      simp only [stoi, hs, hcond.1, if_false, Bool.false_eq_true]
      rw [if_neg (by omega)]

theorem digits_append {s t : Str} {c : Char} (hc : c.isDigit = false) :
    digits (s ++ c :: t) = digits s := by
  induction s with
  | nil => simp [digits, hc]
  | cons d s ih =>
    simp only [digits, List.cons_append, List.takeWhile_cons] at ih ⊢
    split <;> simp [ih]

/-- The sign is looked for in the first character only. -/
theorem signed_append {d c : Char} {s t : Str} (hd : isspace d = false) :
    signed (d :: s ++ c :: t) = ((signed (d :: s)).1, (signed (d :: s)).2 ++ c :: t) := by
  simp only [signed, List.cons_append, List.dropWhile_cons, hd, Bool.false_eq_true, if_false]
  split
  · next heq => cases heq; rfl
  · next heq => cases heq; rfl
  · next h1 h2 =>
    split
    · next heq => cases heq; exact absurd rfl (h1 _)
    · next heq => cases heq; exact absurd rfl (h2 _)
    · rfl

/-- `stoull` reads no further than the digits. -/
theorem stoull_append {d c : Char} {s t : Str} (hd : isspace d = false) (hc : c.isDigit = false) :
    stoull (d :: s ++ c :: t) = stoull (d :: s) := by
  simp only [stoull, signed_append hd, number, digits_append hc]
  rfl

theorem signed_decimal (n : Nat) : signed (decimal n) = (false, decimal n) := by
  obtain ⟨c, t, hd, hc⟩ := exists_decimal_cons n
  rw [hd]
  exact signed_of_isDigit t hc

end Text
end CustomIsaVm
