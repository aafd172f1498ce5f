import Mathlib.Data.List.TakeWhile
import CustomIsaVm.Lib.Fold
import CustomIsaVm.Assembler.Basic
import CustomIsaVm.Machine.Decode

/-! What a pass does to a line.

`firstPassLine_eq_ok` and `secondPassLine_eq_ok` say everything a turn of either
loop can do when it does not throw; nothing after this module unfolds the two.
`LineAgrees` relates the words the two passes read: the second pass splits the
first pass's words at their commas, so that the mnemonic, the number of operands
and the argument of `.skip` are the same for both (`both_passes`). -/
namespace CustomIsaVm.Assembler
open Text Fold

/-! ### The instruction table -/

theorem mem_of_lookup {α β : Type} [BEq α] [LawfulBEq α] {k : α} {v : β} {table : List (α × β)}
    (h : table.lookup k = some v) : (k, v) ∈ table := by
  induction table with
  | nil => cases h
  | cons e table ih =>
    obtain ⟨k', v'⟩ := e
    rw [List.lookup_cons] at h
    split at h
    next heq =>
      cases h
      rw [eq_of_beq heq]
      exact List.mem_cons_self ..
    next => exact List.mem_cons_of_mem _ (ih h)

theorem mem_instructionTable {mnemonic : Str} {n : Nat} {opcode : Opcode}
    (h : findOpcode mnemonic n = some opcode) : ((mnemonic, n), opcode) ∈ instructionTable :=
  mem_of_lookup h

/-- The switch of `exec` fetches as many operands as the table asks for. -/
theorem arity_of_findOpcode {mnemonic : Str} {n : Nat} {opcode : Opcode}
    (h : findOpcode mnemonic n = some opcode) : arity opcode = n := by
  have htable : ∀ e ∈ instructionTable, arity e.2 = e.1.2 := by decide
  exact htable _ (mem_instructionTable h)

/-- No mnemonic has two arities. -/
theorem findOpcode_arity {mnemonic : Str} {n m : Nat} {op op' : Opcode}
    (h : findOpcode mnemonic n = some op) (h' : findOpcode mnemonic m = some op') : n = m := by
  have htable : ∀ e ∈ instructionTable, ∀ e' ∈ instructionTable, e.1.1 = e'.1.1 → e.1.2 = e'.1.2 := by
    decide
  exact htable _ (mem_instructionTable h) _ (mem_instructionTable h') rfl

theorem comma_notin_mnemonic {mnemonic : Str} {n : Nat} {opcode : Opcode}
    (h : findOpcode mnemonic n = some opcode) : ',' ∉ mnemonic := by
  have htable : ∀ e ∈ instructionTable, ',' ∉ e.1.1 := by decide
  exact htable _ (mem_instructionTable h)

/-! ### Labels -/

/-- The label that the first pass takes a line for. -/
def labelOf (line : Str) : Option Str :=
  match words (cutComment line) with
  | [] => none
  | firstTok :: _ => if endsIn ':' firstTok then some firstTok.dropLast else none

/-- Whether one of the lines is the label `name`. -/
def defines (lines : List Str) (name : Str) : Bool := lines.any fun line => labelOf line == some name

@[simp] theorem defines_nil (name : Str) : defines [] name = false := rfl

@[simp] theorem defines_append (a b : List Str) (name : Str) :
    defines (a ++ b) name = (defines a name || defines b name) := by
  simp [defines]

theorem defines_single (line name : Str) : defines [line] name = (labelOf line == some name) := by
  simp [defines]

/-! ### A line of the first pass -/

@[simp] theorem define_labels (s : FirstPass) (label : Str) : (s.define label).addressesOfLabels =
    Function.update s.addressesOfLabels label (some (UInt16.ofNat s.currentDimension)) := rfl

@[simp] theorem define_dimension (s : FirstPass) (label : Str) :
    (s.define label).currentDimension = s.currentDimension := rfl

@[simp] theorem count_labels (s : FirstPass) (n : Nat) :
    (s.count n).addressesOfLabels = s.addressesOfLabels := rfl

@[simp] theorem count_dimension (s : FirstPass) (n : Nat) :
    (s.count n).currentDimension = (s.currentDimension + n) % 2 ^ 64 := rfl

/-- The kinds of the operands, as the first pass sees them. -/
abbrev Kinds (labels : Labels) (args : List Str) (types : List ArgType) : Prop :=
  List.Forall₂ (fun arg t => firstPassType labels (popComma arg) = .ok t) args types

/-- What a line of the first pass is and what it does. -/
inductive FirstLine (s : FirstPass) (line : Str) : FirstPass → Prop
  | blank (hwords : words (cutComment line) = []) : FirstLine s line s
  | label {name : Str} (hlabel : labelOf line = some name) : FirstLine s line (s.define name)
  | skip {sizeStr : Str} {rest : List Str} {n : Nat} (hlabel : labelOf line = none)
      (hwords : words (cutComment line) = skipDirective :: sizeStr :: rest)
      (hn : stoull sizeStr = .ok n) : FirstLine s line (s.count n)
  | instruction {mnemonic : Str} {args : List Str} {types : List ArgType} {opcode : Opcode}
      (hlabel : labelOf line = none) (hwords : words (cutComment line) = mnemonic :: args)
      (hskip : mnemonic ≠ skipDirective) (htypes : Kinds s.addressesOfLabels args types)
      (hop : findOpcode mnemonic args.length = some opcode) :
      FirstLine s line (s.count (instructionSize types))

theorem parsed_eq_ok {α : Type} {x : Except ParseError α} {v : α} : parsed x = .ok v ↔ x = .ok v := by
  cases x <;> simp [parsed]

theorem firstPassLine_eq_ok {s s' : FirstPass} {line : Str} (h : firstPassLine s line = .ok s') :
    FirstLine s line s' := by
  unfold firstPassLine at h
  cases hw : words (cutComment line) with
  | nil =>
    rw [hw] at h
    cases h
    exact .blank hw
  | cons firstTok args =>
    have hlabel : labelOf line = if endsIn ':' firstTok then some firstTok.dropLast else none := by
      simp only [labelOf, hw]
    simp only [hw] at h
    split at h
    next hcolon =>
      cases h
      exact .label (by rw [hlabel, if_pos hcolon])
    next hcolon =>
      rw [if_neg hcolon] at hlabel
      split at h
      next hskip =>
        subst hskip
        split at h
        next => cases h
        next sizeStr rest =>
          obtain ⟨n, hn, h⟩ := bind_eq_ok.mp h
          cases h
          exact .skip hlabel hw (parsed_eq_ok.mp hn)
      next hskip =>
        obtain ⟨types, htypes, h⟩ := bind_eq_ok.mp h
        have hkinds := mapM_eq_ok.mp htypes
        split at h
        next opcode hop =>
          cases h
          rw [← hkinds.length_eq] at hop
          exact .instruction hlabel hw hskip hkinds hop
        next => cases h

/-- The labels known to the first pass are those of the lines above. -/
theorem firstPass_known {above lines : List Str} {s s' : FirstPass}
    (h : lines.foldlM firstPassLine s = .ok s')
    (hs : ∀ name, (s.addressesOfLabels name).isSome = defines above name) (name : Str) :
    (s'.addressesOfLabels name).isSome = defines (above ++ lines) name := by
  refine foldlM_along (I := fun above s => ∀ name, (s.addressesOfLabels name).isSome = defines above name)
    above (fun above s line t hs ht name => ?_) h hs name
  rw [defines_append, defines_single, ← hs name]
  cases firstPassLine_eq_ok ht with
  | blank hwords => simp [labelOf, hwords]
  | @label label hlabel =>
    rw [hlabel, define_labels]
    by_cases hname : name = label
    · subst hname
      simp
    · rw [Function.update_of_ne hname]
      simp [Ne.symm hname]
  | skip hlabel => simp [hlabel]
  | instruction hlabel => simp [hlabel]

/-- A label that no later line repeats keeps its address. -/
theorem firstPass_keeps {lines : List Str} {s s' : FirstPass} {name : Str}
    (h : lines.foldlM firstPassLine s = .ok s') (hlast : ∀ line ∈ lines, labelOf line ≠ some name) :
    s'.addressesOfLabels name = s.addressesOfLabels name := by
  induction lines generalizing s with
  | nil =>
    cases h
    rfl
  | cons line lines ih =>
    obtain ⟨u, hu, h⟩ := foldlM_cons_eq_ok.mp h
    rw [ih h fun l hl => hlast l (List.mem_cons_of_mem line hl)]
    have hline := hlast line (List.mem_cons_self ..)
    cases firstPassLine_eq_ok hu with
    | blank => rfl
    | label hlabel =>
      rw [define_labels, Function.update_of_ne]
      rintro rfl
      exact hline hlabel
    | skip => rfl
    | instruction => rfl

/-! ### A line of the second pass -/

@[simp] theorem emit_codes (s : SecondPass) (part : List Opcode) : (s.emit part).codes = s.codes ++ part :=
  rfl

/-- The operands and the bytes emitted for each. -/
abbrev Encoded (labels : Labels) (args : List Str) (codes : List (List Opcode)) : Prop :=
  List.Forall₂ (fun arg code => operandBytes labels arg = .ok code) args codes

/-- What a line of the second pass is and what it emits. -/
inductive SecondLine (labels : Labels) (line : Str) : List Opcode → Prop
  | skipped (hwords : instructionOf line = []) : SecondLine labels line []
  | skip {size : Str} {n : Nat} (hwords : instructionOf line = [skipDirective, size])
      (hn : stoull size = .ok n) : SecondLine labels line (List.replicate n 0)
  | instruction {mnemonic : Str} {args : List Str} {opcode : Opcode} {codes : List (List Opcode)}
      (hwords : instructionOf line = mnemonic :: args) (hskip : mnemonic ≠ skipDirective)
      (hop : findOpcode mnemonic args.length = some opcode) (hcodes : Encoded labels args codes) :
      SecondLine labels line (opcode :: codes.flatten)

theorem instructionToOpcode_eq_ok {line : Nat} {mnemonic : Str} {args : List Str} {labels : Labels}
    {part : List Opcode} (h : instructionToOpcode line mnemonic args labels = .ok part) :
    ∃ opcode codes, findOpcode mnemonic args.length = some opcode ∧ Encoded labels args codes ∧
      part = opcode :: codes.flatten := by
  unfold instructionToOpcode at h
  split at h
  next => cases h
  next opcode hop =>
    obtain ⟨codes, hcodes, h⟩ := bind_eq_ok.mp h
    cases h
    exact ⟨opcode, codes, hop, mapM_eq_ok.mp hcodes, rfl⟩

theorem encoded_mem {labels : Labels} {args : List Str} {codes : List (List Opcode)}
    (h : Encoded labels args codes) {arg : Str} (harg : arg ∈ args) :
    ∃ code, operandBytes labels arg = .ok code := by
  obtain ⟨k, hlt, rfl⟩ := List.mem_iff_getElem.mp harg
  exact ⟨_, h.get hlt (h.length_eq ▸ hlt)⟩

theorem secondPassLine_eq_ok {labels : Labels} {s s' : SecondPass} {line : Str}
    (h : secondPassLine labels s line = .ok s') :
    ∃ part, SecondLine labels line part ∧ s'.codes = s.codes ++ part := by
  unfold secondPassLine at h
  cases hw : instructionOf line with
  | nil =>
    rw [hw] at h
    cases h
    exact ⟨[], .skipped hw, by simp⟩
  | cons mnemonic args =>
    simp only [hw] at h
    split at h
    next hskip =>
      subst hskip
      split at h
      next size =>
        obtain ⟨n, hn, h⟩ := bind_eq_ok.mp h
        cases h
        exact ⟨_, .skip hw (parsed_eq_ok.mp hn), rfl⟩
      next => cases h
    next hskip =>
      obtain ⟨part, hpart, h⟩ := bind_eq_ok.mp h
      cases h
      obtain ⟨opcode, codes, hop, hcodes, rfl⟩ := instructionToOpcode_eq_ok hpart
      exact ⟨_, .instruction hw hskip hop hcodes, rfl⟩

/-! ### Commas, colons and comments -/

theorem cutComment_of_notin {line : Str} (h : ';' ∉ line) : cutComment line = line := by
  rw [cutComment, List.takeWhile_eq_self_iff]
  intro c hc
  rw [decide_eq_true_eq]
  rintro rfl
  exact h hc

theorem cutComment_comment {line : Str} (h : ';' ∉ line) (comment : Str) :
    cutComment (line ++ ';' :: comment) = line := by
  have hall := List.takeWhile_eq_self_iff.mp (cutComment_of_notin h)
  rw [cutComment, List.takeWhile_append_of_pos hall, List.takeWhile_cons_of_neg (by simp), List.append_nil]

theorem endsIn_of_notin {c : Char} {s : Str} (h : c ∉ s) : endsIn c s = false := by
  rw [endsIn, beq_eq_false_iff_ne]
  exact fun hlast => h (List.mem_of_getLast? hlast)

theorem popComma_of_notin {arg : Str} (h : ',' ∉ arg) : popComma arg = arg := by
  rw [popComma, endsIn_of_notin h]
  rfl

theorem popComma_comma (arg : Str) : popComma (arg ++ ",".toList) = arg := by
  have hends : endsIn ',' (arg ++ ",".toList) = true := by
    simp [endsIn]
  rw [popComma, if_pos hends]
  exact List.dropLast_concat

/-! ### The words of both passes -/

/-- The words the second pass makes of one of the first. -/
def pieces (w : Str) : List Str := words (w.map commaToSpace)

theorem isspace_commaToSpace {c : Char} (h : isspace c = true) : isspace (commaToSpace c) = true := by
  unfold commaToSpace
  split
  · rfl
  · exact h

theorem map_commaToSpace {w : Str} (h : ',' ∉ w) : w.map commaToSpace = w := by
  refine (List.map_congr_left fun c hc => ?_).trans (List.map_id w)
  have hne : c ≠ ',' := by
    rintro rfl
    exact h hc
  rw [commaToSpace, if_neg hne, id]

theorem pieces_of_word {s w : Str} (hw : w ∈ words s) (h : ',' ∉ w) : pieces w = [w] := by
  rw [pieces, map_commaToSpace h, words_word w (isspace_of_mem_words hw) (words_ne_nil hw)]

theorem instructionOf_eq {line : Str} (h : instructionOf line ≠ []) :
    instructionOf line = (words (cutComment line)).flatMap pieces := by
  simp only [instructionOf] at h ⊢
  split at h
  next => exact absurd rfl h
  next hcolon =>
    rw [if_neg hcolon]
    split at h
    next => exact absurd rfl h
    next hends =>
      rw [if_neg hends]
      exact words_map commaToSpace (fun c => isspace_commaToSpace) _

/-- A mnemonic is the same word for both passes. -/
theorem instructionOf_cons {line mnemonic mnemonic' : Str} {args args' : List Str}
    (hfirst : words (cutComment line) = mnemonic :: args) (hcomma : ',' ∉ mnemonic)
    (hsecond : instructionOf line = mnemonic' :: args') :
    mnemonic' = mnemonic ∧ args' = args.flatMap pieces := by
  have heq : instructionOf line = _ := instructionOf_eq (by rw [hsecond]; exact List.cons_ne_nil _ _)
  have hmem : mnemonic ∈ words (cutComment line) := by
    rw [hfirst]
    exact List.mem_cons_self ..
  rw [hsecond, hfirst, List.flatMap_cons, pieces_of_word hmem hcomma, List.singleton_append] at heq
  exact List.cons.inj heq

/-- Up to its first comma, a word is one piece. -/
theorem pieces_comma {w t : Str} (hw : ∀ c ∈ w, isspace c = false) (hcomma : ',' ∉ w) (hne : w ≠ []) :
    pieces (w ++ ',' :: t) = w :: pieces t := by
  rw [pieces, List.map_append, map_commaToSpace hcomma, List.map_cons]
  exact words_word_space w _ ' ' hw hne rfl

/-- Where the first pass reads a number from a word, so does the second. -/
theorem pieces_stoull {s w : Str} {n : Nat} (hw : w ∈ words s) (h : stoull w = .ok n) :
    ∃ size rest, pieces w = size :: rest ∧ stoull size = .ok n := by
  have hspace := isspace_of_mem_words hw
  by_cases hcomma : ',' ∈ w
  · obtain ⟨size, t, rfl, hsize⟩ := List.eq_append_cons_of_mem hcomma
    have hdigit : (',' : Char).isDigit = false := rfl
    cases size with
    | nil => simp [stoull, signed, digits, isspace] at h
    | cons d size =>
      have hsp : ∀ c ∈ d :: size, isspace c = false := fun c hc => hspace c (List.mem_append_left _ hc)
      refine ⟨d :: size, pieces t, pieces_comma hsp hsize (List.cons_ne_nil _ _), ?_⟩
      rwa [stoull_append (hsp d (List.mem_cons_self ..)) hdigit] at h
  · exact ⟨w, [], pieces_of_word hw hcomma, h⟩

end CustomIsaVm.Assembler
