import CustomIsaVm.Assembler.Lines

/-! Layout.

A `Line` is a line of a text together with how it is laid out: what stands between its
tokens, around them and behind them. The second pass reads the tokens of every layout;
the first pass does where the operands are apart, with blanks between them and no comma
but at the end of one (`Separator.Apart`). Elsewhere it counts another number of
operands, and no mnemonic has two: `layout_iff`. -/
namespace CustomIsaVm.Assembler
open Text Fold

/-! ### Lines as they are laid out -/

/-- One blank or more. -/
structure Gap where
  text : Str
  ne : text ≠ []
  blank : ∀ c ∈ text, isspace c = true

/-- What blanks and comments part. -/
structure Token where
  text : Str
  ne : text ≠ []
  solid : ∀ c ∈ text, isspace c = false
  semicolon : ';' ∉ text

/-- A mnemonic or an operand. -/
structure Piece extends Token where
  comma : ',' ∉ text

/-- What stands between two operands. -/
inductive Separator
  | commaGap (gap : Gap)
  | comma
  | gapCommaGap (before after : Gap)
  | blanks (gap : Gap)

namespace Separator

def text : Separator → Str
  | commaGap gap => ',' :: gap.text
  | comma => [',']
  | gapCommaGap before after => before.text ++ ',' :: after.text
  | blanks gap => gap.text

/-- A comma and blanks. -/
def IsCommaGap : Separator → Prop
  | commaGap _ => True
  | _ => False

/-- Blanks between the operands, and no comma but at the end of one. -/
def Apart : Separator → Prop
  | commaGap _ | blanks _ => True
  | _ => False

theorem IsCommaGap.apart {sep : Separator} (h : sep.IsCommaGap) : sep.Apart := by
  cases sep with
  | commaGap => trivial
  | comma | gapCommaGap | blanks => exact h.elim

end Separator

/-- The operands of an instruction. -/
inductive Operands
  | none
  | some (gap : Gap) (first : Piece) (more : List (Separator × Piece))

/-- Pieces of text, each behind what parts it from the one before. -/
def joined (parts : List (Str × Str)) : Str := parts.flatMap fun p => p.1 ++ p.2

def Operands.parts : Operands → List (Str × Str)
  | none => []
  | some gap first more => (gap.text, first.text) :: more.map fun m => (m.1.text, m.2.text)

def Operands.separators : Operands → List Separator
  | none => []
  | some _ _ more => more.map Prod.fst

/-- What a line says: an instruction, one behind a label, which no pass reads, or a label or
directive, of which blanks part the tokens. -/
inductive Body
  | blank
  | instruction (mnemonic : Piece) (operands : Operands) (hlabel : endsIn ':' mnemonic.text = false)
      (hskip : mnemonic.text ≠ skipDirective)
  | labelled (label : Piece) (gap : Gap) (mnemonic : Piece) (operands : Operands)
      (h : endsIn ':' label.text = true)
  | other (first : Token) (more : List (Gap × Token))
      (h : endsIn ':' first.text = true ∨ first.text = skipDirective)

namespace Body

def text : Body → Str
  | blank => []
  | instruction mnemonic operands _ _ => mnemonic.text ++ joined operands.parts
  | labelled label gap mnemonic operands _ =>
    label.text ++ joined ((gap.text, mnemonic.text) :: operands.parts)
  | other first more _ => first.text ++ joined (more.map fun m => (m.1.text, m.2.text))

def tokens : Body → List Str
  | blank => []
  | instruction mnemonic operands _ _ => mnemonic.text :: operands.parts.map Prod.snd
  | labelled label _ mnemonic operands _ => label.text :: mnemonic.text :: operands.parts.map Prod.snd
  | other first more _ => first.text :: more.map fun m => m.2.text

/-- The separators that are read. -/
def separators : Body → List Separator
  | instruction _ operands _ _ => operands.separators
  | _ => []

end Body

/-- A line of a text. -/
structure Line where
  lead : Str
  body : Body
  trail : Str
  comment : Option Str
  lead_blank : ∀ c ∈ lead, isspace c = true
  trail_blank : ∀ c ∈ trail, isspace c = true

def Line.text (line : Line) : Str :=
  line.lead ++ line.body.text ++ line.trail ++ (line.comment.map (';' :: ·)).getD []

/-- What is left of lines without their layout; blank lines and comments are gone. -/
def statements (lines : List Line) : List (List Str) :=
  (lines.map fun line => line.body.tokens).filter (· ≠ [])

/-- The tokens with a blank between two of them. -/
def spaced : List Str → Str
  | [] => []
  | w :: ws => w ++ joined (ws.map fun v => ([' '], v))

/-! ### What the passes read -/

theorem notin_blanks {s : Str} (h : ∀ c ∈ s, isspace c = true) {c : Char} (hc : isspace c = false) : c ∉ s := by
  intro hmem
  rw [h c hmem] at hc
  cases hc

theorem words_joined {w : Str} (hne : w ≠ []) (hw : ∀ c ∈ w, isspace c = false) {parts : List (Str × Str)}
    (hgaps : ∀ p ∈ parts, p.1 ≠ [] ∧ ∀ c ∈ p.1, isspace c = true)
    (hwords : ∀ p ∈ parts, p.2 ≠ [] ∧ ∀ c ∈ p.2, isspace c = false) :
    words (w ++ joined parts) = w :: parts.map Prod.snd := by
  induction parts generalizing w with
  | nil =>
    rw [joined, List.flatMap_nil, List.append_nil, words_word w hw hne]
    rfl
  | cons p parts ih =>
    obtain ⟨hgap, hblank⟩ := hgaps p (List.mem_cons_self ..)
    obtain ⟨hpne, hp⟩ := hwords p (List.mem_cons_self ..)
    have htext : w ++ joined (p :: parts) = w ++ p.1 ++ (p.2 ++ joined parts) := by
      simp [joined]
    rw [htext, words_append_gap hgap hblank, words_word w hw hne, List.map_cons,
      ih hpne hp (fun q hq => hgaps q (List.mem_cons_of_mem p hq)) fun q hq =>
        hwords q (List.mem_cons_of_mem p hq)]
    rfl

/-- A token of a line. -/
structure Solid (w : Str) : Prop where
  ne : w ≠ []
  space : ∀ c ∈ w, isspace c = false
  semicolon : ';' ∉ w

theorem Token.isSolid (t : Token) : Solid t.text := ⟨t.ne, t.solid, t.semicolon⟩

theorem semicolon_notin_joined {parts : List (Str × Str)} (h : ∀ p ∈ parts, ';' ∉ p.1 ∧ ';' ∉ p.2) :
    ';' ∉ joined parts := by
  intro hmem
  obtain ⟨p, hp, hmem⟩ := List.mem_flatMap.mp hmem
  rcases List.mem_append.mp hmem with hmem | hmem
  · exact (h p hp).1 hmem
  · exact (h p hp).2 hmem

theorem map_blanks {s : Str} (h : ∀ c ∈ s, isspace c = true) : s.map commaToSpace = s :=
  map_commaToSpace (notin_blanks h rfl)

/-- To the second pass every separator is blanks. -/
theorem Separator.map_text (sep : Separator) : sep.text.map commaToSpace ≠ [] ∧
    ∀ c ∈ sep.text.map commaToSpace, isspace c = true := by
  have hcomma : commaToSpace ',' = ' ' := rfl
  have hspace : isspace ' ' = true := rfl
  cases sep with
  | commaGap gap =>
    rw [text, List.map_cons, map_blanks gap.blank, hcomma]
    exact ⟨by simp, List.forall_mem_cons.mpr ⟨hspace, gap.blank⟩⟩
  | comma => exact ⟨by simp [text], by simp [text, hcomma, hspace]⟩
  | gapCommaGap before after =>
    rw [text, List.map_append, List.map_cons, map_blanks before.blank, map_blanks after.blank, hcomma]
    refine ⟨by simp, fun c hc => ?_⟩
    rcases List.mem_append.mp hc with hc | hc
    · exact before.blank c hc
    · rcases List.mem_cons.mp hc with rfl | hc
      · exact hspace
      · exact after.blank c hc
  | blanks gap =>
    rw [text, map_blanks gap.blank]
    exact ⟨gap.ne, gap.blank⟩

theorem Separator.semicolon (sep : Separator) : ';' ∉ sep.text := by
  have hgap : ∀ gap : Gap, ';' ∉ gap.text := fun gap => notin_blanks gap.blank rfl
  cases sep <;> simp [Separator.text, hgap]

/-- A piece of text behind a separator, or behind blanks. -/
structure Part (p : Str × Str) : Prop where
  semicolon : ';' ∉ p.1
  mapped : p.1.map commaToSpace ≠ [] ∧ ∀ c ∈ p.1.map commaToSpace, isspace c = true
  solid : Solid p.2
  comma : ',' ∉ p.2

theorem Gap.part (gap : Gap) (w : Piece) : Part (gap.text, w.text) where
  semicolon := notin_blanks gap.blank rfl
  mapped := by
    rw [map_blanks gap.blank]
    exact ⟨gap.ne, gap.blank⟩
  solid := w.isSolid
  comma := w.comma

theorem Operands.part {operands : Operands} {p : Str × Str} (h : p ∈ operands.parts) : Part p := by
  cases operands with
  | none => cases h
  | some gap first more =>
    rcases List.mem_cons.mp h with rfl | h
    · exact gap.part first
    · obtain ⟨m, -, rfl⟩ := List.mem_map.mp h
      exact ⟨m.1.semicolon, m.1.map_text, m.2.isSolid, m.2.comma⟩

theorem labelled_part {gap : Gap} {mnemonic : Piece} {operands : Operands} {p : Str × Str}
    (h : p ∈ (gap.text, mnemonic.text) :: operands.parts) : Part p := by
  rcases List.mem_cons.mp h with rfl | h
  · exact gap.part mnemonic
  · exact Operands.part h

namespace Body

theorem solid {body : Body} {t : Str} (h : t ∈ body.tokens) : Solid t := by
  cases body with
  | blank => cases h
  | instruction mnemonic operands =>
    rcases List.mem_cons.mp h with rfl | h
    · exact mnemonic.isSolid
    · obtain ⟨p, hp, rfl⟩ := List.mem_map.mp h
      exact (Operands.part hp).solid
  | labelled label gap mnemonic operands =>
    rcases List.mem_cons.mp h with rfl | h
    · exact label.isSolid
    · rw [← List.map_cons (f := Prod.snd) (a := (gap.text, mnemonic.text))] at h
      obtain ⟨p, hp, rfl⟩ := List.mem_map.mp h
      exact (labelled_part hp).solid
  | other first more =>
    rcases List.mem_cons.mp h with rfl | h
    · exact first.isSolid
    · obtain ⟨m, -, rfl⟩ := List.mem_map.mp h
      exact m.2.isSolid

theorem semicolon (body : Body) : ';' ∉ body.text := by
  cases body with
  | blank => simp [text]
  | instruction mnemonic operands =>
    rw [text, List.mem_append, not_or]
    refine ⟨mnemonic.semicolon, semicolon_notin_joined fun p hp => ?_⟩
    exact ⟨(Operands.part hp).semicolon, (Operands.part hp).solid.semicolon⟩
  | labelled label gap mnemonic operands =>
    rw [text, List.mem_append, not_or]
    refine ⟨label.semicolon, semicolon_notin_joined fun p hp => ?_⟩
    exact ⟨(labelled_part hp).semicolon, (labelled_part hp).solid.semicolon⟩
  | other first more =>
    rw [text, List.mem_append, not_or]
    refine ⟨first.semicolon, semicolon_notin_joined fun p hp => ?_⟩
    obtain ⟨m, -, rfl⟩ := List.mem_map.mp hp
    exact ⟨notin_blanks m.1.blank rfl, m.2.semicolon⟩

end Body

theorem cutComment_text (line : Line) : cutComment line.text = line.lead ++ line.body.text ++ line.trail := by
  have hnone : ';' ∉ line.lead ++ line.body.text ++ line.trail := by
    simp only [List.mem_append, not_or]
    exact ⟨⟨notin_blanks line.lead_blank rfl, line.body.semicolon⟩, notin_blanks line.trail_blank rfl⟩
  rw [Line.text]
  cases line.comment with
  | none =>
    rw [Option.map_none, Option.getD_none, List.append_nil]
    exact cutComment_of_notin hnone
  | some comment => exact cutComment_comment hnone comment

/-- The blanks around a line do not matter to the first pass, nor does its comment. -/
theorem words_text (line : Line) : words (cutComment line.text) = words line.body.text := by
  rw [cutComment_text, words_append_blanks line.trail_blank, words_blanks_append line.lead_blank]

/-! ### The second pass -/

/-- The second pass reads a line by its words, commas being blanks. -/
theorem instructionOf_words (line : Str) :
    instructionOf line = if ((words ((cutComment line).map commaToSpace)).getLast?.any (endsIn ':') ||
      (words ((cutComment line).map commaToSpace)).head?.any (endsIn ':')) = true then []
      else words ((cutComment line).map commaToSpace) := by
  unfold instructionOf
  dsimp only
  by_cases hcolon : endsIn ':' (cutComment line) = true
  · rw [if_pos hcolon]
    -- a colon at the end of the line is one at the end of its last word
    obtain ⟨s, hs⟩ := List.getLast?_eq_some_iff.mp (eq_of_beq hcolon)
    obtain ⟨above, w, hw⟩ := words_append_char (s.map commaToSpace) (c := ':') rfl
    have hwords : words ((cutComment line).map commaToSpace) = above ++ [w ++ [':']] := by
      rw [hs, List.map_append]
      exact hw
    rw [hwords, if_pos]
    simp [endsIn]
  · rw [if_neg hcolon]

theorem secondPassLine_congr {line line' : Str}
    (h : words ((cutComment line).map commaToSpace) = words ((cutComment line').map commaToSpace))
    (labels : Labels) (s : SecondPass) : secondPassLine labels s line = secondPassLine labels s line' := by
  unfold secondPassLine
  rw [instructionOf_words, instructionOf_words, h]

theorem pieces_solid {w : Str} (h : Solid w) (hcomma : ',' ∉ w) : pieces w = [w] := by
  rw [pieces, map_commaToSpace hcomma, words_word w h.space h.ne]

theorem flatMap_pieces {ws : List Str} (h : ∀ w ∈ ws, Solid w) (hcomma : ∀ w ∈ ws, ',' ∉ w) :
    ws.flatMap pieces = ws := by
  induction ws with
  | nil => rfl
  | cons w ws ih =>
    rw [List.flatMap_cons, pieces_solid (h w (List.mem_cons_self ..)) (hcomma w (List.mem_cons_self ..)),
      ih (fun v hv => h v (List.mem_cons_of_mem w hv)) fun v hv => hcomma v (List.mem_cons_of_mem w hv)]
    rfl

/-- Blanks part the tokens of a label or directive. -/
theorem Body.words_other (first : Token) (more : List (Gap × Token)) :
    words (first.text ++ joined (more.map fun m => (m.1.text, m.2.text))) =
      first.text :: more.map fun m => m.2.text := by
  rw [words_joined first.ne first.solid, List.map_map]
  · rfl
  all_goals
    intro p hp
    obtain ⟨m, -, rfl⟩ := List.mem_map.mp hp
  · exact ⟨m.1.ne, m.1.blank⟩
  · exact ⟨m.2.ne, m.2.solid⟩

theorem second_joined (w : Piece) {parts : List (Str × Str)} (h : ∀ p ∈ parts, Part p) :
    words ((w.text ++ joined parts).map commaToSpace) = (w.text :: parts.map Prod.snd).flatMap pieces := by
  have hparts : (joined parts).map commaToSpace =
      joined (parts.map fun p => (p.1.map commaToSpace, p.2)) := by
    rw [joined, joined, List.map_flatMap, List.flatMap_map]
    refine List.flatMap_congr fun p hp => ?_
    rw [List.map_append, map_commaToSpace (h p hp).comma]
  have htokens : (w.text :: parts.map Prod.snd).flatMap pieces = w.text :: parts.map Prod.snd := by
    refine flatMap_pieces (List.forall_mem_cons.mpr ⟨w.isSolid, ?_⟩) (List.forall_mem_cons.mpr ⟨w.comma, ?_⟩)
    all_goals
      intro v hv
      obtain ⟨p, hp, rfl⟩ := List.mem_map.mp hv
    · exact (h p hp).solid
    · exact (h p hp).comma
  rw [List.map_append, map_commaToSpace w.comma, hparts, words_joined w.ne w.solid, htokens, List.map_map]
  · rfl
  all_goals
    intro p hp
    obtain ⟨q, hq, rfl⟩ := List.mem_map.mp hp
  · exact (h q hq).mapped
  · exact ⟨(h q hq).solid.ne, (h q hq).solid.space⟩

/-- **The second pass reads the tokens, whatever the layout.** -/
theorem Body.second_words (body : Body) : words (body.text.map commaToSpace) = body.tokens.flatMap pieces := by
  cases body with
  | blank => rfl
  | instruction mnemonic operands => exact second_joined mnemonic fun p hp => Operands.part hp
  | labelled label gap mnemonic operands => exact second_joined label fun p hp => labelled_part hp
  | other first more =>
    rw [text, words_map commaToSpace (fun c => isspace_commaToSpace), words_other]
    rfl

/-! ### The first pass -/

/-- The first pass does not see a comma at the end of an operand. -/
theorem firstPassLine_congr {line line' mnemonic : Str} {args args' : List Str}
    (hwords : words (cutComment line) = mnemonic :: args) (hwords' : words (cutComment line') = mnemonic :: args')
    (hlabel : endsIn ':' mnemonic = false) (hskip : mnemonic ≠ skipDirective)
    (hargs : args.map popComma = args'.map popComma) (s : FirstPass) :
    firstPassLine s line = firstPassLine s line' := by
  have hmap : ∀ as : List Str, (as.mapM fun arg => firstPassType s.addressesOfLabels (popComma arg)) =
      (as.map popComma).mapM (firstPassType s.addressesOfLabels) := fun as => by
    rw [List.mapM_map]
    rfl
  unfold firstPassLine
  rw [hwords, hwords']
  simp only [hlabel, Bool.false_eq_true, if_false, if_neg hskip, hmap, hargs]

/-- Nor what stands behind a label. -/
theorem firstPassLine_label_congr {line line' label : Str} {rest rest' : List Str}
    (hwords : words (cutComment line) = label :: rest) (hwords' : words (cutComment line') = label :: rest')
    (hlabel : endsIn ':' label = true) (s : FirstPass) : firstPassLine s line = firstPassLine s line' := by
  unfold firstPassLine
  rw [hwords, hwords']
  simp only [hlabel, if_true]

/-- **Operands that are apart are read as they are**, but for the commas behind them. -/
theorem words_apart (w : Piece) {more : List (Separator × Piece)} (h : ∀ m ∈ more, m.1.Apart) :
    (words (w.text ++ joined (more.map fun m => (m.1.text, m.2.text)))).map popComma =
      w.text :: more.map fun m => m.2.text := by
  induction more generalizing w with
  | nil =>
    rw [List.map_nil, joined, List.flatMap_nil, List.append_nil, words_word w.text w.solid w.ne]
    exact congrArg (· :: []) (popComma_of_notin w.comma)
  | cons m more ih =>
    obtain ⟨sep, v⟩ := m
    have hrest := ih v fun m' hm' => h m' (List.mem_cons_of_mem _ hm')
    have hsep : sep.Apart := h (sep, v) (List.mem_cons_self ..)
    cases sep with
    | commaGap gap =>
      have htext : w.text ++ joined (((Separator.commaGap gap, v) :: more).map fun m => (m.1.text, m.2.text)) =
          w.text ++ [','] ++ gap.text ++ (v.text ++ joined (more.map fun m => (m.1.text, m.2.text))) := by
        simp [joined, Separator.text]
      have hpop : popComma (w.text ++ [',']) = w.text := popComma_comma w.text
      have hword : words (w.text ++ [',']) = [w.text ++ [',']] := by
        refine words_word _ (fun c hc => ?_) (by simp)
        rcases List.mem_append.mp hc with hc | hc
        · exact w.solid c hc
        · rw [List.mem_singleton.mp hc]
          rfl
      rw [htext, words_append_gap gap.ne gap.blank, hword, List.map_append, hrest, List.map_singleton,
        hpop]
      rfl
    | blanks gap =>
      have htext : w.text ++ joined (((Separator.blanks gap, v) :: more).map fun m => (m.1.text, m.2.text)) =
          w.text ++ gap.text ++ (v.text ++ joined (more.map fun m => (m.1.text, m.2.text))) := by
        simp [joined, Separator.text]
      rw [htext, words_append_gap gap.ne gap.blank, words_word w.text w.solid w.ne, List.map_append, hrest,
        List.map_singleton, popComma_of_notin w.comma]
      rfl
    | comma | gapCommaGap => exact hsep.elim

/-! ### One layout for all -/

theorem words_spaced {ws : List Str} (h : ∀ w ∈ ws, Solid w) : words (spaced ws) = ws := by
  cases ws with
  | nil => rfl
  | cons w ws =>
    have hw := h w (List.mem_cons_self ..)
    rw [spaced, words_joined hw.ne hw.space, List.map_map]
    · exact congrArg (w :: ·) (List.map_id ws)
    all_goals
      intro p hp
      obtain ⟨v, hv, rfl⟩ := List.mem_map.mp hp
    · exact ⟨by simp, by simp [isspace]⟩
    · exact ⟨(h v (List.mem_cons_of_mem w hv)).ne, (h v (List.mem_cons_of_mem w hv)).space⟩

theorem cutComment_spaced {ws : List Str} (h : ∀ w ∈ ws, Solid w) : cutComment (spaced ws) = spaced ws := by
  refine cutComment_of_notin fun hc => ?_
  cases ws with
  | nil => cases hc
  | cons w ws =>
    rcases List.mem_append.mp hc with hc | hc
    · exact (h w (List.mem_cons_self ..)).semicolon hc
    · refine semicolon_notin_joined (fun p hp => ?_) hc
      obtain ⟨v, hv, rfl⟩ := List.mem_map.mp hp
      exact ⟨by simp, (h v (List.mem_cons_of_mem w hv)).semicolon⟩

theorem secondPassLine_text (line : Line) (labels : Labels) (s : SecondPass) :
    secondPassLine labels s line.text = secondPassLine labels s (spaced line.body.tokens) := by
  refine secondPassLine_congr ?_ labels s
  have hsolid : ∀ w ∈ line.body.tokens, Solid w := fun w hw => line.body.solid hw
  rw [cutComment_text, cutComment_spaced hsolid, List.map_append, List.map_append, map_blanks line.lead_blank,
    map_blanks line.trail_blank, words_append_blanks line.trail_blank, words_blanks_append line.lead_blank,
    line.body.second_words, words_map commaToSpace fun c => isspace_commaToSpace, words_spaced hsolid]
  rfl

/-- The words of an instruction, for the first pass. -/
theorem words_instruction (mnemonic : Piece) {operands : Operands} (h : ∀ sep ∈ operands.separators, sep.Apart) :
    ∃ args, words (mnemonic.text ++ joined operands.parts) = mnemonic.text :: args ∧
      args.map popComma = operands.parts.map Prod.snd := by
  cases operands with
  | none =>
    refine ⟨[], ?_, rfl⟩
    rw [Operands.parts, joined, List.flatMap_nil, List.append_nil]
    exact words_word _ mnemonic.solid mnemonic.ne
  | some gap first more =>
    refine ⟨_, ?_, (words_apart first fun m hm => h m.1 (List.mem_map_of_mem hm)).trans ?_⟩
    · have htext : mnemonic.text ++ joined (Operands.some gap first more).parts =
          mnemonic.text ++ gap.text ++ (first.text ++ joined (more.map fun m => (m.1.text, m.2.text))) := by
        simp [joined, Operands.parts]
      rw [htext, words_append_gap gap.ne gap.blank, words_word _ mnemonic.solid mnemonic.ne]
      rfl
    · rw [Operands.parts, List.map_cons, List.map_map]
      rfl

theorem firstPassLine_text {line : Line} (h : ∀ sep ∈ line.body.separators, sep.Apart) (s : FirstPass) :
    firstPassLine s line.text = firstPassLine s (spaced line.body.tokens) := by
  have hsolid : ∀ w ∈ line.body.tokens, Solid w := fun w hw => line.body.solid hw
  have hspaced : words (cutComment (spaced line.body.tokens)) = line.body.tokens := by
    rw [cutComment_spaced hsolid, words_spaced hsolid]
  have hwords := words_text line
  have hsame : words line.body.text = line.body.tokens →
      firstPassLine s line.text = firstPassLine s (spaced line.body.tokens) := fun heq => by
    unfold firstPassLine
    rw [hwords, heq, hspaced]
  cases hbody : line.body with
  | blank =>
    rw [← hbody]
    exact hsame (by rw [hbody]; rfl)
  | instruction mnemonic operands hlabel hskip =>
    rw [hbody] at h hwords hspaced
    obtain ⟨args, hargs, hpop⟩ := words_instruction mnemonic h
    refine firstPassLine_congr (hwords.trans hargs) hspaced hlabel hskip (hpop.trans ?_) s
    refine ((List.map_congr_left fun w hw => ?_).trans (List.map_id _)).symm
    obtain ⟨p, hp, rfl⟩ := List.mem_map.mp hw
    exact popComma_of_notin (Operands.part hp).comma
  | labelled label gap mnemonic operands hlabel =>
    rw [hbody] at hwords hspaced
    have htext : (Body.labelled label gap mnemonic operands hlabel).text =
        label.text ++ gap.text ++ (mnemonic.text ++ joined operands.parts) := by
      simp [Body.text, joined]
    rw [htext, words_append_gap gap.ne gap.blank, words_word _ label.solid label.ne] at hwords
    exact firstPassLine_label_congr hwords hspaced hlabel s
  | other first more =>
    rw [← hbody]
    exact hsame (by rw [hbody]; exact Body.words_other first more)

/-- A loop that reads lines by their tokens reads the statements. -/
theorem foldlM_statements {σ : Type} {f : σ → Str → Asm σ} {lines : List Line}
    (hlines : ∀ line ∈ lines, ∀ s, f s line.text = f s (spaced line.body.tokens))
    (hblank : ∀ s, f s [] = .ok s) (s : σ) :
    (lines.map Line.text).foldlM f s = ((statements lines).map spaced).foldlM f s := by
  have hnil : ∀ s ts, decide (ts ≠ ([] : List Str)) = false → f s (spaced ts) = .ok s := by
    intro s ts hts
    rw [decide_eq_false_iff_not, not_ne_iff] at hts
    rw [hts]
    exact hblank s
  rw [foldlM_map_congr hlines, List.foldlM_map, List.foldlM_map, statements, foldlM_filter hnil, List.foldlM_map]

/-- A text whose operands are apart assembles like its statements, one to a line. -/
theorem asmToOpcodes_apart {text : Str} {lines : List Line} (htext : getlines text = lines.map Line.text)
    (h : ∀ line ∈ lines, ∀ sep ∈ line.body.separators, sep.Apart) :
    asmToOpcodes text = (do
      let first ← firstPass ((statements lines).map spaced)
      let second ← secondPass first.addressesOfLabels ((statements lines).map spaced)
      return second.codes) := by
  have hfirst : firstPass (getlines text) = firstPass ((statements lines).map spaced) := by
    rw [htext]
    exact foldlM_statements (fun line hline s => firstPassLine_text (h line hline) s) (fun _ => rfl) _
  have hsecond : ∀ labels,
      secondPass labels (getlines text) = secondPass labels ((statements lines).map spaced) := by
    intro labels
    rw [htext]
    exact foldlM_statements (fun line _ s => secondPassLine_text line _ s) (fun _ => rfl) _
  rw [asmToOpcodes, hfirst]
  simp only [hsecond]

/-! ### Operands that are not apart -/

/-- No instruction has more than two operands. -/
theorem arity_le {mnemonic : Str} {n : Nat} {opcode : Opcode} (h : findOpcode mnemonic n = some opcode) :
    n ≤ 2 := by
  have htable : ∀ e ∈ instructionTable, e.1.2 ≤ 2 := by decide
  exact htable _ (mem_instructionTable h)

/-- Where the first pass takes a line, its mnemonic has as many operands as the line has words. -/
theorem findOpcode_of_firstPassLine {s s' : FirstPass} {line mnemonic : Str} {args : List Str}
    (h : firstPassLine s line = .ok s') (hwords : words (cutComment line) = mnemonic :: args)
    (hlabel : endsIn ':' mnemonic = false) (hskip : mnemonic ≠ skipDirective) :
    ∃ opcode, findOpcode mnemonic args.length = some opcode := by
  cases firstPassLine_eq_ok h with
  | blank hblank =>
    rw [hwords] at hblank
    cases hblank
  | label hname =>
    simp [labelOf, hwords, hlabel] at hname
  | skip _ hdirective =>
    rw [hwords] at hdirective
    cases hdirective
    exact absurd rfl hskip
  | instruction _ hinstruction _ _ hop =>
    rw [hwords] at hinstruction
    cases hinstruction
    exact ⟨_, hop⟩

/-- Two operands that are not apart are one word, or three. -/
theorem words_not_apart (a b : Piece) {sep : Separator} (h : ¬ sep.Apart) :
    ∃ ws, words (a.text ++ sep.text ++ b.text) = ws ∧ ws.length ≠ 2 := by
  cases sep with
  | commaGap | blanks => exact absurd trivial h
  | comma =>
    refine ⟨_, words_word _ (fun c hc => ?_) (by simp [Separator.text]), by simp⟩
    rcases List.mem_append.mp hc with hc | hc
    · rcases List.mem_append.mp hc with hc | hc
      · exact a.solid c hc
      · rw [List.mem_singleton.mp hc]
        rfl
    · exact b.solid c hc
  | gapCommaGap before after =>
    have htext : a.text ++ (Separator.gapCommaGap before after).text ++ b.text =
        a.text ++ before.text ++ ([','] ++ after.text ++ b.text) := by
      simp [Separator.text]
    refine ⟨_, ?_, (by simp : [a.text, [','], b.text].length ≠ 2)⟩
    rw [htext, words_append_gap before.ne before.blank, words_append_gap after.ne after.blank,
      words_word _ a.solid a.ne, words_word _ b.solid b.ne]
    rfl

/-- An instruction that the first pass takes has its operands apart, where there are as many
as its mnemonic takes. -/
theorem apart_of_firstPassLine {s s' : FirstPass} {line : Line} (h : firstPassLine s line.text = .ok s')
    {mnemonic : Piece} {operands : Operands} {hlabel : endsIn ':' mnemonic.text = false}
    {hskip : mnemonic.text ≠ skipDirective} (hbody : line.body = .instruction mnemonic operands hlabel hskip)
    {opcode : Opcode} (hop : findOpcode mnemonic.text operands.parts.length = some opcode) :
    ∀ sep ∈ operands.separators, sep.Apart := by
  intro sep hsep
  by_contra hnot
  have harity := arity_le hop
  cases operands with
  | none => cases hsep
  | some gap first more =>
    -- there are two operands, and one separator between them
    match more, hsep, harity, hop, hbody with
    | [(sep', second)], hsep, _, hop, hbody =>
      cases List.mem_singleton.mp hsep
      obtain ⟨ws, hws, hlength⟩ := words_not_apart first second hnot
      have htext : line.body.text = mnemonic.text ++ gap.text ++ (first.text ++ sep'.text ++ second.text) := by
        rw [hbody]
        simp [Body.text, joined, Operands.parts]
      have hwords : words (cutComment line.text) = mnemonic.text :: ws := by
        rw [words_text, htext, words_append_gap gap.ne gap.blank, words_word _ mnemonic.solid mnemonic.ne, hws]
        rfl
      obtain ⟨opcode', hop'⟩ := findOpcode_of_firstPassLine h hwords hlabel hskip
      exact hlength (findOpcode_arity hop' hop)
    | _ :: _ :: _, _, harity, _, _ =>
      simp [Operands.parts] at harity

/-- **When assembly does not depend on layout.** Take a text that is accepted, the operands of
its instructions parted by a comma and blanks, and another layout of the same statements.
That one gives the same bytes exactly if no two operands of it are parted by a comma alone
or by a comma with blanks on both sides. -/
theorem layout_iff (old new : Str) (before after : List Line) (bytes : List Opcode)
    (hold : getlines old = before.map Line.text) (hnew : getlines new = after.map Line.text)
    (hsame : statements before = statements after)
    (hcomma : ∀ line ∈ before, ∀ sep ∈ line.body.separators, sep.IsCommaGap)
    (haccepted : asmToOpcodes old = .ok bytes) :
    asmToOpcodes new = .ok bytes ↔ ∀ line ∈ after, ∀ sep ∈ line.body.separators, sep.Apart := by
  have holdApart : ∀ line ∈ before, ∀ sep ∈ line.body.separators, sep.Apart :=
    fun line hline sep hsep => (hcomma line hline sep hsep).apart
  have hstatements := asmToOpcodes_apart hold holdApart
  constructor
  · intro hok line hline sep hsep
    cases hbody : line.body with
    | blank =>
      rw [hbody] at hsep
      cases hsep
    | labelled | other =>
      rw [hbody] at hsep
      cases hsep
    | instruction mnemonic operands hlabel hskip =>
      obtain ⟨first, hfirst, -⟩ := bind_eq_ok.mp (hstatements.symm.trans haccepted)
      have hmem : spaced line.body.tokens ∈ (statements before).map spaced := by
        rw [hsame]
        refine List.mem_map_of_mem (List.mem_filter.mpr ⟨List.mem_map_of_mem hline, ?_⟩)
        simp [hbody, Body.tokens]
      obtain ⟨s, s', hspaced⟩ := foldlM_mem hfirst hmem
      have hwords : words (cutComment (spaced line.body.tokens)) =
          mnemonic.text :: operands.parts.map Prod.snd := by
        have hsolid : ∀ w ∈ line.body.tokens, Solid w := fun w hw => line.body.solid hw
        rw [cutComment_spaced hsolid, words_spaced hsolid, hbody]
        rfl
      obtain ⟨opcode, hop⟩ := findOpcode_of_firstPassLine hspaced hwords hlabel hskip
      rw [List.length_map] at hop
      obtain ⟨first', hfirst', -⟩ := bind_eq_ok.mp hok
      rw [hnew] at hfirst'
      obtain ⟨t, t', hline'⟩ := foldlM_mem hfirst' (List.mem_map_of_mem hline)
      rw [hbody] at hsep
      exact apart_of_firstPassLine hline' hbody hop sep hsep
  · intro h
    rw [asmToOpcodes_apart hnew h, ← hsame, ← hstatements]
    exact haccepted

def oneBlank : Gap := ⟨[' '], by simp, by simp [isspace]⟩

/-- A word of the source. -/
def Piece.of (w : Str) (hne : w ≠ []) (hsolid : w.all (fun c => !isspace c) = true) (hsemicolon : ';' ∉ w)
    (hcomma : ',' ∉ w) : Piece where
  text := w
  ne := hne
  solid c hc := by simpa using List.all_eq_true.mp hsolid c hc
  semicolon := hsemicolon
  comma := hcomma

/-- A `MOV` of 5 to A, its operands parted by `sep`. -/
def movLine (sep : Separator) (comment : Option Str) : Line where
  lead := []
  body := .instruction (.of "MOV".toList (by decide) (by decide) (by decide) (by decide))
    (.some oneBlank (.of "A".toList (by decide) (by decide) (by decide) (by decide))
      [(sep, .of "5".toList (by decide) (by decide) (by decide) (by decide))]) (by decide) (by decide)
  trail := []
  comment := comment
  lead_blank := by simp
  trail_blank := by simp

/-- A comment on a line of its own, and one behind the instruction. -/
theorem layout_iff_comments :
    asmToOpcodes "; five\nMOV A 5; to A".toList = .ok [0, 2, 0x12, 1, 1, 0, 5] := by
  have hlines : getlines "; five\nMOV A 5; to A".toList =
    [⟨[], .blank, [], some " five".toList, by simp, by simp⟩,
      movLine (.blanks oneBlank) (some " to A".toList)].map Line.text := by decide
  have haccepted : asmToOpcodes "MOV A, 5\n".toList = .ok [0, 2, 0x12, 1, 1, 0, 5] := by decide +kernel
  refine (layout_iff "MOV A, 5\n".toList _ [movLine (.commaGap oneBlank) none] _ _ ?_ hlines rfl ?_
    haccepted).mpr ?_
  · decide
  · intro line hline sep hsep
    rw [List.mem_singleton.mp hline] at hsep
    rw [List.mem_singleton.mp hsep]
    trivial
  · intro line hline sep hsep
    rcases List.mem_pair.mp hline with rfl | rfl
    · cases hsep
    · rw [List.mem_singleton.mp hsep]
      trivial

/-- With no blank behind the comma the first pass finds one operand, with one before it three;
the second pass would have read both. -/
theorem layout_matters : asmToOpcodes "MOV A, 5\n".toList = .ok [0, 2, 0x12, 1, 1, 0, 5] ∧
    asmToOpcodes "MOV A,5\n".toList = .error (.unknownMnemonic 1 "MOV".toList) ∧
    (∀ bytes, asmToOpcodes "MOV A , 5\n".toList ≠ .ok bytes) ∧
    getlines "MOV A, 5\n".toList = [(movLine (.commaGap oneBlank) none).text] ∧
    getlines "MOV A,5\n".toList = [(movLine .comma none).text] ∧
    getlines "MOV A , 5\n".toList = [(movLine (.gapCommaGap oneBlank oneBlank) none).text] ∧
    statements [movLine .comma none] = statements [movLine (.commaGap oneBlank) none] ∧
    statements [movLine (.gapCommaGap oneBlank oneBlank) none] = statements [movLine (.commaGap oneBlank) none] ∧
    instructionOf (movLine .comma none).text = instructionOf (movLine (.commaGap oneBlank) none).text := by
  refine ⟨by decide +kernel, by decide +kernel, fun bytes h => ?_, by decide, by decide, by decide, rfl, rfl,
    by decide +kernel⟩
  have herror : (asmToOpcodes "MOV A , 5\n".toList).isOk = false := by decide +kernel
  rw [h] at herror
  cases herror

end CustomIsaVm.Assembler