import CustomIsaVm.Brainfvck.Image

/-! Which sources compile.

`compile_accepts`: a source fails to compile exactly when its brackets are not balanced,
with the message that says how; a balanced one has its brackets paired, every jump of
its final text has one label to go to, and the text assembles. -/
namespace CustomIsaVm.Brainfvck
open Text Fold Assembler

/-! ### Jumps and labels of a text -/

/-- Every label that a conditional jump of the text names is defined once in it. -/
def JumpsDefined (text : Str) : Prop :=
  ∀ line ∈ getlines text, ∀ name, (instructionOf line = ["JE".toList, name] ∨
      instructionOf line = ["JNE".toList, name]) →
    (getlines text).countP (fun l => labelOf l == some name) = 1

/-- An item that is no bracket is one line, and that is no jump. -/
theorem lines_plain {x : Item} (hx : x.isBracket = false) : ∃ mnemonic args opcode,
    x.lines = [written mnemonic args] ∧ findOpcode mnemonic args.length = some opcode ∧
      (∀ a ∈ args, Clean a) ∧ mnemonic ≠ "JE".toList ∧ mnemonic ≠ "JNE".toList := by
  cases x with
  | op o d src =>
    refine ⟨_, _, _, lines_op o d src, opcode_operation o, clean_pair d src, ?_⟩
    cases o <;> decide
  | print =>
    exact ⟨"PRINT".toList, ["[A]".toList], _, rfl, opcode_print, clean_word (clean_place .cell), by decide,
      by decide⟩
  | input =>
    exact ⟨"INPUT".toList, ["[A]".toList], _, rfl, opcode_input, clean_word (clean_place .cell), by decide,
      by decide⟩
  | halt => exact ⟨"HALT".toList, [], _, rfl, opcode_halt, by simp, by decide, by decide⟩
  | loopStart id => cases hx
  | loopEnd id => cases hx

/-- A bracket is its label, a comparison, and a jump to its partner. -/
theorem lines_bracket {x : Item} (hx : x.isBracket = true) : ∃ jump opcode,
    x.lines = [x.label ++ ":".toList, written "CMP".toList ["[A]".toList, "0".toList],
      written jump [x.partner.label]] ∧ findOpcode jump 1 = some opcode := by
  cases x with
  | loopStart id => exact ⟨_, _, lines_loopStart id, opcode_je⟩
  | loopEnd id => exact ⟨_, _, lines_loopEnd id, opcode_jne⟩
  | op => cases hx
  | print => cases hx
  | input => cases hx
  | halt => cases hx

/-- The only jump of an item is to the label of its partner. -/
theorem jump_of_item {x : Item} {line name : Str} (hline : line ∈ x.lines)
    (hjump : instructionOf line = ["JE".toList, name] ∨ instructionOf line = ["JNE".toList, name]) :
    x.isBracket = true ∧ name = x.partner.label := by
  cases hx : x.isBracket with
  | false =>
    obtain ⟨mnemonic, args, opcode, hlines, hop, hargs, hje, hjne⟩ := lines_plain hx
    rw [hlines, List.mem_singleton] at hline
    subst hline
    rw [instructionOf_written (clean_mnemonic hop) hargs] at hjump
    rcases hjump with h | h
    · exact absurd (List.cons.inj h).1 hje
    · exact absurd (List.cons.inj h).1 hjne
  | true =>
    obtain ⟨jump, opcode, hlines, hop⟩ := lines_bracket hx
    have hgoal := (labelWord_label (Item.isBracket_partner hx)).clean
    rw [hlines] at hline
    simp only [List.mem_cons, List.not_mem_nil, or_false] at hline
    refine ⟨rfl, ?_⟩
    rcases hline with rfl | rfl | rfl
    · rw [instructionOf_label (labelWord_label hx).clean] at hjump
      rcases hjump with h | h <;> cases h
    · rw [instructionOf_written (clean_mnemonic opcode_cmp) clean_cmp] at hjump
      rcases hjump with h | h <;> simp at h
    · rw [instructionOf_written (clean_mnemonic hop) (clean_word hgoal)] at hjump
      rcases hjump with h | h <;> (cases h; rfl)

/-- The label of `y` is defined by `y` alone. -/
theorem labels_of_item {x y : Item} (hy : y.isBracket = true) :
    x.lines.countP (fun l => labelOf l == some y.label) = if x = y then 1 else 0 := by
  cases hx : x.isBracket with
  | false =>
    obtain ⟨mnemonic, args, opcode, hlines, hop, hargs, -⟩ := lines_plain hx
    have hne : x ≠ y := by
      rintro rfl
      rw [hx] at hy
      cases hy
    rw [hlines, List.countP_singleton, labelOf_written (clean_mnemonic hop) hargs, if_neg hne]
    rfl
  | true =>
    obtain ⟨jump, opcode, hlines, hop⟩ := lines_bracket hx
    have hgoal := (labelWord_label (Item.isBracket_partner hx)).clean
    have hcmp := labelOf_written (clean_mnemonic opcode_cmp) clean_cmp
    have hjump := labelOf_written (clean_mnemonic hop) (clean_word hgoal)
    rw [hlines, List.countP_cons, List.countP_cons, List.countP_singleton, hcmp, hjump,
      labelOf_label (labelWord_label hx).clean]
    by_cases heq : x = y
    · subst heq
      simp
    · have hne : x.label ≠ y.label := fun h => heq (label_injective hx hy h)
      simp [heq, hne]

theorem labels_of_items (xs : List Item) {y : Item} (hy : y.isBracket = true) :
    (allLines xs).countP (fun l => labelOf l == some y.label) = (xs.filter Item.isBracket).count y := by
  induction xs with
  | nil => rfl
  | cons x xs ih =>
    rw [allLines_cons, List.countP_append, labels_of_item hy, ih, List.filter_cons]
    split
    next heq =>
      subst heq
      rw [if_pos hy, List.count_cons_self, Nat.add_comm]
    next hne =>
      split
      · rw [List.count_cons_of_ne hne, Nat.zero_add]
      · rw [Nat.zero_add]

/-- In the text of a list of items, every jump has its label. -/
theorem assembly_jumps {prog : List Item} (h : WellBracketed prog) : JumpsDefined (assembly prog) := by
  intro line hline name hjump
  rw [getlines_assembly] at hline ⊢
  rcases List.mem_append.mp hline with hline | hline
  · have hpreamble : ∀ line ∈ preamble, (instructionOf line).length < 2 ∨
        (instructionOf line).head? = some skipDirective := by
      decide
    rcases hpreamble line hline with hshort | hskip
    · rcases hjump with h | h <;> rw [h] at hshort <;> simp at hshort
    · rcases hjump with h | h <;> rw [h] at hskip <;> revert hskip <;> simp [skipDirective]
  · obtain ⟨x, hx, hline⟩ := List.mem_flatMap.mp hline
    obtain ⟨hb, rfl⟩ := jump_of_item hline hjump
    have hpb := Item.isBracket_partner hb
    have hpreamble : preamble.countP (fun l => labelOf l == some x.partner.label) = 0 := by
      have hlabels : ∀ line ∈ preamble, labelOf line = none ∨ labelOf line = some startLabel := by decide
      rw [List.countP_eq_zero]
      intro line hline
      rcases hlabels line hline with h | h
      · simp [h]
      · simp [h, Ne.symm (label_ne_start hpb)]
    rw [List.countP_append, hpreamble, labels_of_items prog hpb, Nat.zero_add]
    exact List.count_eq_one_of_mem h.unique (List.mem_filter.mpr ⟨h.partner x hx hb, hpb⟩)

/-! ### Compiling -/

theorem compile_eq_ok {source code : Str} {bytes : List Opcode} (h : generate source = .ok code)
    (hassemble : asmToOpcodes (applyLoopOptimizations (applyOptimizations code)) = .ok bytes) :
    compile source = .ok bytes := by
  rw [compile, h]
  show assemble _ = _
  rw [assemble, hassemble]

/-- A source of fewer than 2^31 commands compiles to the image of its last stage. -/
theorem Stages.compile {source : Str} {xs ys zs : List Item} (h : Stages source xs ys zs)
    (hsize : source.countP isCommand < 2 ^ 31) :
    asmToOpcodes (applyLoopOptimizations (applyOptimizations (assembly xs))) = .ok (image zs) ∧
      Brainfvck.compile source = .ok (image zs) := by
  have hwithin := (h.within (n := 2147483647) (by omega) (by decide)).2
  have hassemble : asmToOpcodes (applyLoopOptimizations (applyOptimizations (assembly xs))) =
      .ok (image zs) := by
    rw [h.optimized, h.replaced]
    exact assemble_items h.brackets_replaced fun z hz => (hwithin z hz).fits
  exact ⟨hassemble, compile_eq_ok h.generated hassemble⟩

/-- **The compiler accepts the balanced programs**, and says of each of the others what
is wrong with it. -/
theorem compile_accepts (source : Str) (hsize : source.countP isCommand < 2 ^ 31) :
    ((∃ e, compile source = .error e) ↔ ¬ Balanced source) ∧
      (Overclosed source → compile source = .error .unmatchedClose) ∧
      (¬ Balanced source → ¬ Overclosed source → compile source = .error .unmatchedOpen) ∧
      (Balanced source → Paired source ∧ ∃ text bytes, generate source = .ok text ∧
        JumpsDefined (applyLoopOptimizations (applyOptimizations text)) ∧
        asmToOpcodes (applyLoopOptimizations (applyOptimizations text)) = .ok bytes ∧
        compile source = .ok bytes) := by
  have hclose : Overclosed source → compile source = .error .unmatchedClose := by
    intro h
    rw [compile, generate_overclosed h]
    rfl
  have hopen : ¬ Balanced source → ¬ Overclosed source → compile source = .error .unmatchedOpen := by
    intro h hover
    rw [compile, generate_open hover fun hcount => h ⟨hover, hcount⟩]
    rfl
  have hbalanced : Balanced source → Paired source ∧ ∃ text bytes, generate source = .ok text ∧
      JumpsDefined (applyLoopOptimizations (applyOptimizations text)) ∧
      asmToOpcodes (applyLoopOptimizations (applyOptimizations text)) = .ok bytes ∧
      compile source = .ok bytes := by
    intro h
    obtain ⟨xs, ys, zs, hstages⟩ := stages h
    obtain ⟨hassemble, hcompile⟩ := hstages.compile hsize
    refine ⟨paired h, assembly xs, image zs, hstages.generated, ?_, hassemble, hcompile⟩
    rw [hstages.optimized, hstages.replaced]
    exact assembly_jumps hstages.brackets_replaced
  refine ⟨⟨?_, fun h => ?_⟩, hclose, hopen, hbalanced⟩
  · rintro ⟨e, he⟩ hb
    obtain ⟨-, text, bytes, -, -, -, hok⟩ := hbalanced hb
    rw [hok] at he
    cases he
  · by_cases hover : Overclosed source
    · exact ⟨_, hclose hover⟩
    · exact ⟨_, hopen h hover⟩

theorem compile_accepts_nested : Balanced "+[>,[-<+>]<.-]".toList ∧
    ∃ bytes, compile "+[>,[-<+>]<.-]".toList = .ok bytes := by
  have hb : Balanced "+[>,[-<+>]<.-]".toList := (Brackets.balanced_iff (by decide)).mpr (by decide)
  obtain ⟨-, -, -, h⟩ := compile_accepts "+[>,[-<+>]<.-]".toList (by decide)
  obtain ⟨-, text, bytes, -, -, -, hok⟩ := h hb
  exact ⟨hb, bytes, hok⟩

end CustomIsaVm.Brainfvck
