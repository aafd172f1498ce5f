import Mathlib.Data.List.TakeWhile
import CustomIsaVm.Assembler.Lines

/-! Lines as a compiler writes them.

`written` is a mnemonic with its operands, a comma and a blank between two of them.
Where none of the words holds a character that means something to a pass, both passes
read the words back (`firstPassLine_written`, `secondPassLine_written`); a name with
a colon is a label for both (`firstPassLine_label`, `secondPassLine_label`). -/
namespace CustomIsaVm.Assembler
open Text Fold

/-- A word that no pass cuts or takes for a label. -/
structure Clean (w : Str) : Prop where
  ne : w ≠ []
  space : ∀ c ∈ w, isspace c = false
  comma : ',' ∉ w
  colon : ':' ∉ w
  semicolon : ';' ∉ w

/-- A character that means nothing to a pass. -/
def plainChar (c : Char) : Bool := !(isspace c || c == ',' || c == ':' || c == ';')

theorem clean_of_plain {w : Str} (hne : w ≠ []) (h : w.all plainChar = true) : Clean w := by
  have hplain : ∀ c ∈ w, plainChar c = true := List.all_eq_true.mp h
  have hnot : ∀ c, plainChar c = false → c ∉ w := by
    intro c hc hmem
    rw [hplain c hmem] at hc
    cases hc
  refine ⟨hne, fun c hc => ?_, hnot ',' rfl, hnot ':' rfl, hnot ';' rfl⟩
  have := hplain c hc
  simp only [plainChar, Bool.not_eq_true', Bool.or_eq_false_iff] at this
  exact this.1.1.1

theorem plainChar_of_isDigit {c : Char} (h : c.isDigit = true) : plainChar c = true := by
  have hne : ∀ d : Char, d.isDigit = false → (c == d) = false := by
    intro d hd
    rw [beq_eq_false_iff_ne]
    rintro rfl
    rw [h] at hd
    cases hd
  simp only [plainChar, isspace_of_isDigit h, hne ',' rfl, hne ':' rfl, hne ';' rfl, Bool.or_self, Bool.not_false]

theorem plain_decimal (n : Nat) : (decimal n).all plainChar = true :=
  List.all_eq_true.mpr fun _ hc => plainChar_of_isDigit (isDigit_of_mem_decimal hc)

theorem findRegister_long {w : Str} (h : 1 < w.length) : findRegister w = none := by
  rw [findRegister, List.lookup_eq_none_iff]
  intro e he
  have hregs : ∀ e ∈ regmap, e.1.length = 1 := by decide
  rw [bne_iff_ne]
  rintro rfl
  have := hregs e he
  omega

/-- The mnemonics of the table are such words. -/
theorem clean_mnemonic {mnemonic : Str} {n : Nat} {opcode : Opcode}
    (h : findOpcode mnemonic n = some opcode) : Clean mnemonic := by
  have htable : ∀ e ∈ instructionTable, e.1.1 ≠ [] ∧ e.1.1.all plainChar = true := by decide
  obtain ⟨hne, hplain⟩ := htable _ (mem_instructionTable h)
  exact clean_of_plain hne hplain

theorem mnemonic_ne_skip {mnemonic : Str} {n : Nat} {opcode : Opcode}
    (h : findOpcode mnemonic n = some opcode) : mnemonic ≠ skipDirective := by
  have htable : ∀ e ∈ instructionTable, e.1.1 ≠ skipDirective := by decide
  exact htable _ (mem_instructionTable h)

/-- The operands behind a mnemonic, from the first one on. -/
def writtenArgs : List Str → Str
  | [] => []
  | [a] => a
  | a :: args => a ++ ", ".toList ++ writtenArgs args

/-- A line: the mnemonic and the operands. -/
def written (mnemonic : Str) : List Str → Str
  | [] => mnemonic
  | args => mnemonic ++ " ".toList ++ writtenArgs args

/-- The operands as words of the first pass: the comma belongs to the word before it. -/
def commas : List Str → List Str
  | [] => []
  | [a] => [a]
  | a :: args => (a ++ ",".toList) :: commas args

theorem writtenArgs_cons (a b : Str) (args : List Str) :
    writtenArgs (a :: b :: args) = a ++ ", ".toList ++ writtenArgs (b :: args) := rfl

theorem commas_cons (a b : Str) (args : List Str) :
    commas (a :: b :: args) = (a ++ ",".toList) :: commas (b :: args) := rfl

/-! ### Characters of a line -/

theorem mem_writtenArgs {c : Char} {args : List Str} (h : c ∈ writtenArgs args) :
    c = ',' ∨ c = ' ' ∨ ∃ a ∈ args, c ∈ a := by
  induction args with
  | nil => cases h
  | cons a args ih =>
    cases args with
    | nil => exact .inr (.inr ⟨a, List.mem_singleton_self a, h⟩)
    | cons b args =>
      rw [writtenArgs_cons, List.mem_append, List.mem_append] at h
      rcases h with (h | h) | h
      · exact .inr (.inr ⟨a, List.mem_cons_self .., h⟩)
      · have hsep : c = ',' ∨ c = ' ' := by simpa using h
        exact hsep.imp_right .inl
      · rcases ih h with h | h | ⟨d, hd, h⟩
        · exact .inl h
        · exact .inr (.inl h)
        · exact .inr (.inr ⟨d, List.mem_cons_of_mem a hd, h⟩)

theorem mem_written {c : Char} {mnemonic : Str} {args : List Str} (h : c ∈ written mnemonic args) :
    c ∈ mnemonic ∨ c = ',' ∨ c = ' ' ∨ ∃ a ∈ args, c ∈ a := by
  unfold written at h
  split at h
  · exact .inl h
  · rw [List.mem_append, List.mem_append] at h
    rcases h with (h | h) | h
    · exact .inl h
    · exact .inr (.inr (.inl (by simpa using h)))
    · exact .inr (mem_writtenArgs h)

section Line
variable {mnemonic : Str} {args : List Str}

theorem cutComment_written (hm : Clean mnemonic) (hargs : ∀ a ∈ args, Clean a) :
    cutComment (written mnemonic args) = written mnemonic args := by
  refine cutComment_of_notin fun h => ?_
  rcases mem_written h with h | h | h | ⟨a, ha, h⟩
  · exact hm.semicolon h
  · cases h
  · cases h
  · exact (hargs a ha).semicolon h

theorem endsIn_written (hm : Clean mnemonic) (hargs : ∀ a ∈ args, Clean a) :
    endsIn ':' (written mnemonic args) = false := by
  refine endsIn_of_notin fun h => ?_
  rcases mem_written h with h | h | h | ⟨a, ha, h⟩
  · exact hm.colon h
  · cases h
  · cases h
  · exact (hargs a ha).colon h

/-! ### Words of a line -/

theorem words_writtenArgs (hargs : ∀ a ∈ args, Clean a) : words (writtenArgs args) = commas args := by
  induction args with
  | nil => rfl
  | cons a args ih =>
    have ha := hargs a (List.mem_cons_self ..)
    cases args with
    | nil => exact words_word a ha.space ha.ne
    | cons b args =>
      have hword : ∀ c ∈ a ++ ",".toList, isspace c = false := by
        intro c hc
        rcases List.mem_append.mp hc with hc | hc
        · exact ha.space c hc
        · rw [List.mem_singleton.mp hc]
          rfl
      have hrest := ih fun d hd => hargs d (List.mem_cons_of_mem a hd)
      have hsplit : writtenArgs (a :: b :: args) =
          (a ++ ",".toList) ++ ' ' :: writtenArgs (b :: args) := by
        simp [writtenArgs_cons]
      rw [hsplit, words_word_space _ _ ' ' hword (by simp) rfl, hrest, commas_cons]

theorem words_written (hm : Clean mnemonic) (hargs : ∀ a ∈ args, Clean a) :
    words (written mnemonic args) = mnemonic :: commas args := by
  unfold written
  split
  · exact words_word mnemonic hm.space hm.ne
  · rw [List.append_assoc]
    show words (mnemonic ++ ' ' :: writtenArgs args) = _
    rw [words_word_space mnemonic _ ' ' hm.space hm.ne rfl, words_writtenArgs hargs]

theorem popComma_commas (hargs : ∀ a ∈ args, Clean a) : (commas args).map popComma = args := by
  induction args with
  | nil => rfl
  | cons a args ih =>
    have hrest := ih fun d hd => hargs d (List.mem_cons_of_mem a hd)
    cases args with
    | nil => exact congrArg (· :: []) (popComma_of_notin (hargs a (List.mem_cons_self ..)).comma)
    | cons b args =>
      rw [commas_cons, List.map_cons, popComma_comma, hrest]

theorem pieces_clean {w : Str} (hw : Clean w) : pieces w = [w] := by
  rw [pieces, map_commaToSpace hw.comma, words_word w hw.space hw.ne]

theorem pieces_commas (hargs : ∀ a ∈ args, Clean a) : (commas args).flatMap pieces = args := by
  induction args with
  | nil => rfl
  | cons a args ih =>
    have ha := hargs a (List.mem_cons_self ..)
    have hrest := ih fun d hd => hargs d (List.mem_cons_of_mem a hd)
    cases args with
    | nil => simp [commas, pieces_clean ha]
    | cons b args =>
      have hword : pieces (a ++ ",".toList) = [a] := pieces_comma ha.space ha.comma ha.ne
      rw [commas_cons, List.flatMap_cons, hword, hrest]
      rfl

theorem instructionOf_written (hm : Clean mnemonic) (hargs : ∀ a ∈ args, Clean a) :
    instructionOf (written mnemonic args) = mnemonic :: args := by
  have hwords : words ((written mnemonic args).map commaToSpace) = mnemonic :: args := by
    rw [words_map commaToSpace fun c => isspace_commaToSpace]
    show (words (written mnemonic args)).flatMap pieces = _
    rw [words_written hm hargs, List.flatMap_cons, pieces_clean hm, pieces_commas hargs]
    rfl
  have hlast : (mnemonic :: args).getLast?.any (endsIn ':') = false := by
    rw [List.getLast?_eq_some_getLast (List.cons_ne_nil _ _), Option.any_some]
    refine endsIn_of_notin fun h => ?_
    rcases List.mem_cons.mp (List.getLast_mem (List.cons_ne_nil mnemonic args)) with heq | hmem
    · rw [heq] at h
      exact hm.colon h
    · exact (hargs _ hmem).colon h
  have hhead : endsIn ':' mnemonic = false := endsIn_of_notin hm.colon
  simp only [instructionOf, cutComment_written hm hargs, endsIn_written hm hargs, hwords, hlast, hhead,
    List.head?_cons, Option.any_some, Bool.or_self, Bool.false_eq_true, if_false]

/-! ### Both passes -/

theorem labelOf_written (hm : Clean mnemonic) (hargs : ∀ a ∈ args, Clean a) :
    labelOf (written mnemonic args) = none := by
  have hhead : endsIn ':' mnemonic = false := endsIn_of_notin hm.colon
  simp only [labelOf, cutComment_written hm hargs, words_written hm hargs, hhead, Bool.false_eq_true,
    if_false]

/-- The first pass counts an instruction. -/
theorem firstPassLine_written {s : FirstPass} {types : List ArgType} {opcode : Opcode}
    (hop : findOpcode mnemonic args.length = some opcode) (hargs : ∀ a ∈ args, Clean a)
    (htypes : List.Forall₂ (fun arg t => firstPassType s.addressesOfLabels arg = .ok t) args types) :
    firstPassLine s (written mnemonic args) = .ok (s.count (instructionSize types)) := by
  have hm := clean_mnemonic hop
  have hskip := mnemonic_ne_skip hop
  have hhead : endsIn ':' mnemonic = false := endsIn_of_notin hm.colon
  have hkinds : (commas args).mapM (fun arg => firstPassType s.addressesOfLabels (popComma arg)) =
      .ok types := by
    rw [mapM_eq_ok]
    rw [← popComma_commas hargs, List.forall₂_map_left_iff] at htypes
    exact htypes
  rw [htypes.length_eq] at hop
  simp only [firstPassLine, cutComment_written hm hargs, words_written hm hargs, hhead, hskip, hkinds,
    Bool.false_eq_true, if_false]
  refine bind_eq_ok.mpr ⟨types, rfl, ?_⟩
  rw [hop]
  rfl

/-- The second pass emits it. -/
theorem secondPassLine_written {labels : Labels} {s : SecondPass} {codes : List (List Opcode)}
    {opcode : Opcode} (hop : findOpcode mnemonic args.length = some opcode)
    (hargs : ∀ a ∈ args, Clean a) (hcodes : Encoded labels args codes) :
    secondPassLine labels s (written mnemonic args) = .ok (s.emit (opcode :: codes.flatten)) := by
  have hm := clean_mnemonic hop
  have hskip := mnemonic_ne_skip hop
  have hall : args.mapM (operandBytes labels) = .ok codes := mapM_eq_ok.mpr hcodes
  simp only [secondPassLine, instructionOf_written hm hargs, hskip, if_false, instructionToOpcode, hop, hall]
  rfl

/-! ### Labels -/

theorem words_label {name : Str} (h : Clean name) :
    words (cutComment (name ++ ":".toList)) = [name ++ ":".toList] := by
  rw [cutComment_of_notin (by simp [h.semicolon]), words_word]
  · intro c hc
    rcases List.mem_append.mp hc with hc | hc
    · exact h.space c hc
    · rw [List.mem_singleton.mp hc]
      rfl
  · simp

theorem endsIn_label (name : Str) : endsIn ':' (name ++ ":".toList) = true := by
  simp [endsIn]

theorem labelOf_label {name : Str} (h : Clean name) : labelOf (name ++ ":".toList) = some name := by
  simp only [labelOf, words_label h, endsIn_label, if_true]
  rw [show name ++ ":".toList = name ++ [':'] from rfl, List.dropLast_concat]

theorem firstPassLine_label {s : FirstPass} {name : Str} (h : Clean name) :
    firstPassLine s (name ++ ":".toList) = .ok (s.define name) := by
  simp only [firstPassLine, words_label h, endsIn_label, if_true]
  rw [show name ++ ":".toList = name ++ [':'] from rfl, List.dropLast_concat]

theorem instructionOf_label {name : Str} (h : Clean name) : instructionOf (name ++ ":".toList) = [] := by
  simp only [instructionOf, cutComment_of_notin (show ';' ∉ name ++ ":".toList by simp [h.semicolon]),
    endsIn_label, if_true]

theorem secondPassLine_label {labels : Labels} {s : SecondPass} {name : Str} (h : Clean name) :
    secondPassLine labels s (name ++ ":".toList) = .ok s := by
  simp only [secondPassLine, instructionOf_label h]

end Line

end CustomIsaVm.Assembler
