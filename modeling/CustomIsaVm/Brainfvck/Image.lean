import CustomIsaVm.Assembler.RoundTrip
import CustomIsaVm.Assembler.Writing
import CustomIsaVm.Brainfvck.Stages

/-! The image of a list of items.

`image` is what the assembler makes of the text of a list of items: the header, the
tape, and the code of each item, its jumps leading to the addresses that the first pass
has recorded (`assemble_items`). The recorded address of a bracket is off from where
its code stands by the wide literals before it: `counted` is what the first pass takes
an item for, `size` what the second emits. -/
namespace CustomIsaVm.Brainfvck
open Text Fold Assembler

/-! ### The code of an item -/

def Place.code : Place → List Opcode
  | a => [1, 1]
  | b => [1, 2]
  | c => [1, 3]
  | cell => [3, 1]

def Source.code : Source → List Opcode
  | place p => p.code
  | num v => if 255 < v then [6, UInt8.ofInt (v / 256), UInt8.ofInt v] else [0, UInt8.ofInt v]

def Operation.opcode : Operation → Opcode
  | mov => 0x12
  | add => 0x32
  | sub => 0x52
  | mul => 0x72

/-- The bytes of an item, if the label of a bracket has the address `target`. -/
def Item.code (target : Item → MemAddr) : Item → List Opcode
  | op o d s => o.opcode :: (d.code ++ s.code)
  | print => [0x01, 3, 1]
  | input => [0x21, 3, 1]
  | halt => [0xFF]
  | loopStart id => [0xB2, 3, 1, 0, 0] ++ 0x41 :: 2 :: addressBytes (target (.loopEnd id))
  | loopEnd id => [0xB2, 3, 1, 0, 0] ++ 0x51 :: 2 :: addressBytes (target (.loopStart id))

/-- The bytes the second pass emits for an item. -/
def Item.size (x : Item) : Nat := (x.code fun _ => 0).length

/-- The bytes the first pass counts for an item. -/
def Item.counted : Item → Nat
  | op _ _ _ => 5
  | print | input => 3
  | halt => 1
  | loopStart _ | loopEnd _ => 9

/-- The label that stands before a bracket. -/
def Item.label : Item → Str
  | loopStart id => startPar id
  | loopEnd id => closePar id
  | _ => []

def size (xs : List Item) : Nat := (xs.map Item.size).sum

def counted (xs : List Item) : Nat := (xs.map Item.counted).sum

@[simp] theorem size_nil : size [] = 0 := rfl

@[simp] theorem size_cons (x : Item) (xs : List Item) : size (x :: xs) = x.size + size xs := by simp [size]

@[simp] theorem size_append (xs ys : List Item) : size (xs ++ ys) = size xs + size ys := by simp [size]

@[simp] theorem counted_nil : counted [] = 0 := rfl

@[simp] theorem counted_append (xs ys : List Item) : counted (xs ++ ys) = counted xs + counted ys := by
  simp [counted]

@[simp] theorem counted_cons (x : Item) (xs : List Item) : counted (x :: xs) = x.counted + counted xs := by
  simp [counted]

theorem code_length (target : Item → MemAddr) (x : Item) : (x.code target).length = x.size := by
  cases x <;> rfl

/-- The header and the tape stand before the items. -/
def codeStart : Nat := 30002

/-- The items before `x`. -/
def before (prog : List Item) (x : Item) : List Item := prog.takeWhile (· ≠ x)

/-- The address that the first pass records for the label of `x`. -/
def recorded (prog : List Item) (x : Item) : MemAddr := UInt16.ofNat (codeStart + counted (before prog x))

def image (prog : List Item) : List Opcode :=
  [0x75, 0x32] ++ (List.replicate 30000 0 ++ prog.flatMap (Item.code (recorded prog)))

theorem code_flatMap_length (target : Item → MemAddr) (xs : List Item) :
    (xs.flatMap (Item.code target)).length = size xs := by
  induction xs with
  | nil => rfl
  | cons x xs ih => rw [List.flatMap_cons, List.length_append, code_length, ih, size_cons]

theorem image_length (prog : List Item) : (image prog).length = codeStart + size prog := by
  rw [image, List.length_append, List.length_append, List.length_replicate, code_flatMap_length, codeStart]
  show 2 + (30000 + size prog) = _
  omega

/-! ### Words -/

theorem clean_place (p : Place) : Clean p.text := by
  refine clean_of_plain ?_ ?_ <;> cases p <;> decide

theorem clean_decimalInt (v : Int) : Clean (decimalInt v) := by
  unfold decimalInt
  split
  · refine clean_of_plain (List.cons_ne_nil _ _) ?_
    rw [List.all_cons, plain_decimal]
    rfl
  · exact clean_of_plain (decimal_ne_nil _) (plain_decimal _)

theorem clean_source (s : Source) : Clean s.text := by
  cases s with
  | place p => exact clean_place p
  | num v => exact clean_decimalInt v

theorem clean_lead {lead : Str} (hlead : lead.all plainChar = true) (id : Nat) :
    Clean (lead ++ decimal id) := by
  refine clean_of_plain (by simp [decimal_ne_nil]) ?_
  rw [List.all_append, hlead, plain_decimal]
  rfl

theorem clean_startPar (id : Nat) : Clean (startPar id) := clean_lead (by decide) id

theorem clean_closePar (id : Nat) : Clean (closePar id) := clean_lead (by decide) id

/-! ### Operands -/

/-- The labels known to the first pass are the entry point and those of brackets. -/
def Named (labels : Labels) : Prop :=
  ∀ name, (labels name).isSome = true → name.head? = some 's' ∨ name.head? = some 'c'

theorem Named.none {labels : Labels} (h : Named labels) {name : Str} (hs : name.head? ≠ some 's')
    (hc : name.head? ≠ some 'c') : (labels name).isSome = false := by
  rw [Bool.eq_false_iff]
  exact fun hsome => (h name hsome).elim hs hc

def Place.kind : Place → ArgType
  | cell => .indirectReg
  | _ => .register

def Source.kind : Source → ArgType
  | place p => p.kind
  | num _ => .number

theorem kind_place {labels : Labels} (h : Named labels) (p : Place) :
    firstPassType labels p.text = .ok p.kind := by
  cases p with
  | a => rfl
  | b => rfl
  | c => rfl
  | cell =>
    have hnone : (labels (Place.text .cell)).isSome = false := h.none (by decide) (by decide)
    simp only [firstPassType, hnone]
    rfl

theorem decimalInt_head (v : Int) : ∃ c t, decimalInt v = c :: t ∧ (c.isDigit = true ∨ c = '-') := by
  unfold decimalInt
  split
  · exact ⟨'-', _, rfl, .inr rfl⟩
  · obtain ⟨c, t, heq, hc⟩ := exists_decimal_cons v.natAbs
    exact ⟨c, t, heq, .inl hc⟩

theorem not_isAlpha_of_isDigit {c : Char} (h : c.isDigit = true) : (c.isAlpha || c == '_') = false := by
  have hle : c.val.toNat ≤ 57 := by
    simp only [Char.isDigit, Bool.and_eq_true, decide_eq_true_eq] at h
    exact UInt32.le_iff_toNat_le.mp h.2
  have halpha : c.isAlpha = (decide ('A'.val ≤ c.val ∧ c.val ≤ 'Z'.val) ||
      (decide ('a'.val ≤ c.val) && decide (c.val ≤ 'z'.val))) := rfl
  have hA : ¬ 'A'.val ≤ c.val := fun h => absurd (Nat.le_trans (UInt32.le_iff_toNat_le.mp h) hle) (by decide)
  have ha : ¬ 'a'.val ≤ c.val := fun h => absurd (Nat.le_trans (UInt32.le_iff_toNat_le.mp h) hle) (by decide)
  have hline : (c == '_') = false := by
    rw [beq_eq_false_iff_ne]
    rintro rfl
    exact absurd hle (by decide)
  rw [halpha, hline, decide_eq_false fun h => hA h.1, decide_eq_false ha]
  rfl

theorem kind_number {labels : Labels} (h : Named labels) (v : Int) :
    firstPassType labels (decimalInt v) = .ok .number := by
  obtain ⟨c, t, heq, hc⟩ := decimalInt_head v
  rw [heq]
  have hhead : ∀ d : Char, d.isDigit = false → d ≠ '-' → c ≠ d := by
    rintro d hd hne rfl
    rcases hc with hc | hc
    · rw [hd] at hc
      cases hc
    · exact hne hc
  have hnone : (labels (c :: t)).isSome = false :=
    h.none (by simpa using hhead 's' (by decide) (by decide)) (by simpa using hhead 'c' (by decide) (by decide))
  have hreg : findRegister (c :: t) = none := by
    rcases hc with hc | rfl
    · exact findRegister_of_isDigit hc
    · rfl
  have halpha : (c.isAlpha || c == '_') = false := by
    rcases hc with hc | rfl
    · exact not_isAlpha_of_isDigit hc
    · rfl
  simp [firstPassType, hreg, hnone, halpha, hhead '[' (by decide) (by decide)]

theorem kind_source {labels : Labels} (h : Named labels) (s : Source) :
    firstPassType labels s.text = .ok s.kind := by
  cases s with
  | place p => exact kind_place h p
  | num v => exact kind_number h v

/-- A word that is read as a label. -/
structure LabelWord (w : Str) : Prop where
  clean : Clean w
  head : w.head? = some 's' ∨ w.head? = some 'c'
  long : 1 < w.length
  bracket : '[' ∉ w

theorem labelWord_startPar (id : Nat) : LabelWord (startPar id) where
  clean := clean_startPar id
  head := .inl rfl
  long := by simp [startPar_eq]
  bracket h := by
    rcases List.mem_append.mp h with h | h
    · exact absurd h (by decide)
    · exact absurd (isDigit_of_mem_decimal h) (by decide)

theorem labelWord_closePar (id : Nat) : LabelWord (closePar id) where
  clean := clean_closePar id
  head := .inr rfl
  long := by simp [closePar_eq]
  bracket h := by
    rcases List.mem_append.mp h with h | h
    · exact absurd h (by decide)
    · exact absurd (isDigit_of_mem_decimal h) (by decide)

theorem LabelWord.cons {w : Str} (h : LabelWord w) : ∃ c t, w = c :: t ∧ (c = 's' ∨ c = 'c') := by
  cases w with
  | nil => exact absurd rfl h.clean.ne
  | cons c t => exact ⟨c, t, rfl, by simpa using h.head⟩

theorem LabelWord.kind {labels : Labels} {w : Str} (h : LabelWord w) :
    firstPassType labels w = .ok .address := by
  have hreg := findRegister_long h.long
  obtain ⟨c, t, rfl, hc⟩ := h.cons
  have halpha : c.isAlpha = true := by rcases hc with rfl | rfl <;> rfl
  simp [firstPassType, hreg, halpha]

theorem bytes_place (labels : Labels) (p : Place) : operandBytes labels p.text = .ok p.code := by
  cases p <;> rfl

/-- A literal that is an `int`. -/
def Fits (v : Int) : Prop := -2147483648 ≤ v ∧ v ≤ 2147483647

/-- The literal, if there is one, is an `int`. -/
def Item.Fits : Item → Prop
  | op _ _ (.num v) => Brainfvck.Fits v
  | _ => True

theorem Item.Within.fits {x : Item} (h : x.Within 2147483647) : x.Fits := by
  unfold Item.Fits
  split
  · unfold Item.Within at h
    unfold Brainfvck.Fits
    omega
  · trivial

theorem fromChars_fits {v : Int} (h : Fits v) : fromChars (decimalInt v) = some v := by
  unfold Fits at h
  unfold decimalInt
  split
  · rw [fromChars_minus_decimal, if_neg (by omega)]
    exact congrArg some (by omega)
  · rw [fromChars_decimal, if_neg (by omega)]
    exact congrArg some (by omega)

theorem bytes_number (labels : Labels) {v : Int} (h : Fits v) :
    operandBytes labels (decimalInt v) = .ok (Source.num v).code := by
  have hfrom := fromChars_fits h
  have hval : parsed (stoi (decimalInt v)) = .ok v := by rw [stoi_of_fromChars hfrom]; rfl
  have htype := operandType_of_fromChars hfrom
  rw [Source.code]
  split at htype
  next hwide =>
    rw [if_pos (by omega), operandBytes, payloadBytes, htype]
    simp only [hval]
    rfl
  next hwide =>
    rw [if_neg (by omega), operandBytes, payloadBytes, htype]
    simp only [hval]
    rfl

theorem stoi_wide {v : Int} (h : ¬ Fits v) : stoi (decimalInt v) = .error .outOfRange := by
  unfold Fits at h
  unfold decimalInt
  split
  · have hsigned : signed ('-' :: decimal v.natAbs) = (true, decimal v.natAbs) := by simp [signed, isspace]
    simp only [stoi, hsigned, digits_decimal, decimal_ne_nil, number_decimal, if_false, if_true]
    rw [if_pos (by omega)]
  · simp only [stoi, signed_decimal, digits_decimal, decimal_ne_nil, number_decimal, if_false,
      Bool.false_eq_true]
    rw [if_pos (by omega)]

theorem operandType_wide {v : Int} (h : ¬ Fits v) : operandType (decimalInt v) = .number := by
  have hopen : ∀ n, '[' ∉ decimal n := fun n hmem => absurd (isDigit_of_mem_decimal hmem) (by decide)
  unfold Fits at h
  unfold decimalInt
  split
  · have hfrom : fromChars ('-' :: decimal v.natAbs) = none := by
      rw [fromChars_minus_decimal, if_pos (by omega)]
    simp [operandType, hfrom, hopen, decimal_ne_nil]
  · have hfrom : fromChars (decimal v.natAbs) = none := by
      rw [fromChars_decimal, if_pos (by omega)]
    obtain ⟨c, t, heq, hc⟩ := exists_decimal_cons v.natAbs
    have hnot := hopen v.natAbs
    rw [heq] at hfrom hnot ⊢
    simp [operandType, hfrom, hnot, hc]

/-- A literal that the assembler takes is an `int`. -/
theorem fits_of_bytes {labels : Labels} {v : Int} {code : List Opcode}
    (h : operandBytes labels (decimalInt v) = .ok code) : Fits v := by
  by_contra hnot
  rw [operandBytes, payloadBytes, operandType_wide hnot] at h
  simp only [stoi_wide hnot, parsed] at h
  cases h

theorem LabelWord.type {w : Str} (h : LabelWord w) : operandType w = .address := by
  have hreg := findRegister_long h.long
  have hbracket := h.bracket
  obtain ⟨c, t, rfl, hc⟩ := h.cons
  have hfrom : fromChars (c :: t) = none := by
    rw [fromChars_of_not_minus (by rcases hc with rfl | rfl <;> (rintro u heq; cases heq))]
    rcases hc with rfl | rfl <;> simp [digits]
  rw [operandType, hfrom]
  simp only [hbracket, false_and, if_false, hreg]
  rcases hc with rfl | rfl <;> rfl

theorem LabelWord.bytes {labels : Labels} {w : Str} (h : LabelWord w) {addr : MemAddr}
    (hw : labels w = some addr) : operandBytes labels w = .ok (2 :: addressBytes addr) := by
  rw [operandBytes, payloadBytes, h.type]
  simp only [payloadBytes.lookup, hw]
  rfl

/-! ### The first pass -/

theorem lines_op (o : Operation) (d : Place) (s : Source) :
    (Item.op o d s).lines = [written o.text [d.text, s.text]] := by
  simp [Item.lines, written, writtenArgs]

theorem opcode_operation (o : Operation) : findOpcode o.text 2 = some o.opcode := by
  cases o <;> decide

theorem opcode_cmp : findOpcode "CMP".toList 2 = some 0xB2 := by decide

theorem opcode_je : findOpcode "JE".toList 1 = some 0x41 := by decide

theorem opcode_jne : findOpcode "JNE".toList 1 = some 0x51 := by decide

theorem opcode_print : findOpcode "PRINT".toList 1 = some 0x01 := by decide

theorem opcode_input : findOpcode "INPUT".toList 1 = some 0x21 := by decide

theorem opcode_halt : findOpcode "HALT".toList 0 = some 0xFF := by decide

theorem clean_pair (d : Place) (s : Source) : ∀ a ∈ [d.text, s.text], Clean a := by
  intro a ha
  simp only [List.mem_cons, List.not_mem_nil, or_false] at ha
  rcases ha with rfl | rfl
  · exact clean_place d
  · exact clean_source s

theorem clean_word {w : Str} (hw : Clean w) : ∀ a ∈ [w], Clean a := by
  intro a ha
  rw [List.mem_singleton.mp ha]
  exact hw

theorem clean_cmp : ∀ a ∈ ["[A]".toList, "0".toList], Clean a := clean_pair .cell (.num 0)

theorem isMemory_place (p : Place) : p.kind.isMemory = false := by cases p <;> rfl

theorem isMemory_source (s : Source) : s.kind.isMemory = false := by
  cases s with
  | place p => exact isMemory_place p
  | num v => rfl

/-- The label, the comparison and the jump of a bracket are counted with nine bytes. -/
theorem firstPass_bracket {s : FirstPass} {jump name target : Str} {opcode : Opcode}
    (h : Named s.addressesOfLabels) (hname : LabelWord name) (htarget : LabelWord target)
    (hop : findOpcode jump 1 = some opcode) :
    [name ++ ":".toList, "CMP [A], 0".toList, written jump [target]].foldlM firstPassLine s =
      .ok (((s.define name).count 5).count 4) := by
  have hnamed : Named (s.define name).addressesOfLabels := by
    intro w hw
    rw [define_labels] at hw
    by_cases heq : w = name
    · rw [heq]
      exact hname.head
    · rw [Function.update_of_ne heq] at hw
      exact h w hw
  have hcmp : firstPassLine (s.define name) (written "CMP".toList ["[A]".toList, "0".toList]) =
      .ok ((s.define name).count (instructionSize [.indirectReg, .number])) :=
    firstPassLine_written opcode_cmp clean_cmp
      (.cons (kind_place hnamed .cell) (.cons (kind_number hnamed 0) .nil))
  have hjump : firstPassLine ((s.define name).count 5) (written jump [target]) =
      .ok (((s.define name).count 5).count (instructionSize [.address])) :=
    firstPassLine_written hop (clean_word htarget.clean) (.cons htarget.kind .nil)
  exact foldlM_cons_eq_ok.mpr ⟨_, firstPassLine_label hname.clean,
    foldlM_cons_eq_ok.mpr ⟨_, hcmp, foldlM_cons_eq_ok.mpr ⟨_, hjump, rfl⟩⟩⟩

theorem lines_loopStart (id : Nat) : (Item.loopStart id).lines =
    [startPar id ++ ":".toList, "CMP [A], 0".toList, written "JE".toList [closePar id]] := by
  simp [Item.lines, written, writtenArgs]

theorem lines_loopEnd (id : Nat) : (Item.loopEnd id).lines =
    [closePar id ++ ":".toList, "CMP [A], 0".toList, written "JNE".toList [startPar id]] := by
  simp [Item.lines, written, writtenArgs]

theorem labelWord_label {x : Item} (hx : x.isBracket = true) : LabelWord x.label := by
  cases x with
  | loopStart id => exact labelWord_startPar id
  | loopEnd id => exact labelWord_closePar id
  | op => cases hx
  | print => cases hx
  | input => cases hx
  | halt => cases hx

/-- The first pass on an item: a bracket's label is defined, and all bytes are counted. -/
theorem firstPass_item {s : FirstPass} (h : Named s.addressesOfLabels) (x : Item) :
    ∃ s', x.lines.foldlM firstPassLine s = .ok s' ∧
      s'.currentDimension % 2 ^ 64 = (s.currentDimension + x.counted) % 2 ^ 64 ∧
      s'.addressesOfLabels = if x.isBracket then Function.update s.addressesOfLabels x.label
        (some (UInt16.ofNat s.currentDimension)) else s.addressesOfLabels := by
  have hsingle : ∀ {line : Str} {n : Nat}, firstPassLine s line = .ok (s.count n) →
      ∃ s', [line].foldlM firstPassLine s = .ok s' ∧
        s'.currentDimension % 2 ^ 64 = (s.currentDimension + n) % 2 ^ 64 ∧
        s'.addressesOfLabels = s.addressesOfLabels := fun hline =>
    ⟨_, foldlM_cons_eq_ok.mpr ⟨_, hline, rfl⟩, by rw [count_dimension, Nat.mod_mod], rfl⟩
  have hbracket : ∀ (name : Str), (((s.define name).count 5).count 4).currentDimension % 2 ^ 64 =
      (s.currentDimension + 9) % 2 ^ 64 := by
    intro name
    rw [count_dimension, count_dimension, define_dimension]
    omega
  cases x with
  | op o d src =>
    rw [lines_op]
    refine hsingle ((firstPassLine_written (opcode_operation o) (clean_pair d src)
      (.cons (kind_place h d) (.cons (kind_source h src) .nil))).trans ?_)
    simp [instructionSize, isMemory_place, isMemory_source, Item.counted]
  | print =>
    have hline : firstPassLine s (written "PRINT".toList ["[A]".toList]) = .ok (s.count 3) :=
      firstPassLine_written opcode_print (clean_word (clean_place .cell)) (.cons (kind_place h .cell) .nil)
    exact hsingle hline
  | input =>
    have hline : firstPassLine s (written "INPUT".toList ["[A]".toList]) = .ok (s.count 3) :=
      firstPassLine_written opcode_input (clean_word (clean_place .cell)) (.cons (kind_place h .cell) .nil)
    exact hsingle hline
  | halt =>
    have hline : firstPassLine s (written "HALT".toList []) = .ok (s.count 1) :=
      firstPassLine_written opcode_halt (by simp) .nil
    exact hsingle hline
  | loopStart id =>
    rw [lines_loopStart]
    exact ⟨_, firstPass_bracket h (labelWord_startPar id) (labelWord_closePar id) opcode_je, hbracket _, rfl⟩
  | loopEnd id =>
    rw [lines_loopEnd]
    exact ⟨_, firstPass_bracket h (labelWord_closePar id) (labelWord_startPar id) opcode_jne, hbracket _, rfl⟩

theorem startPar_ne_closePar (i j : Nat) : startPar i ≠ closePar j := by
  intro h
  have := congrArg List.head? h
  simp [startPar_eq, closePar_eq] at this

theorem label_injective {x y : Item} (hx : x.isBracket = true) (hy : y.isBracket = true)
    (h : x.label = y.label) : x = y := by
  cases x with
  | loopStart i =>
    cases y with
    | loopStart j =>
      rw [Item.label, Item.label, startPar_eq, startPar_eq] at h
      exact congrArg Item.loopStart (decimal_injective (List.append_cancel_left h))
    | loopEnd j => exact absurd h (startPar_ne_closePar i j)
    | op => cases hy
    | print => cases hy
    | input => cases hy
    | halt => cases hy
  | loopEnd i =>
    cases y with
    | loopEnd j =>
      rw [Item.label, Item.label, closePar_eq, closePar_eq] at h
      exact congrArg Item.loopEnd (decimal_injective (List.append_cancel_left h))
    | loopStart j => exact absurd h.symm (startPar_ne_closePar j i)
    | op => cases hy
    | print => cases hy
    | input => cases hy
    | halt => cases hy
  | op => cases hx
  | print => cases hx
  | input => cases hx
  | halt => cases hx

theorem label_ne_start {x : Item} (hx : x.isBracket = true) : x.label ≠ startLabel := by
  intro h
  have := congrArg List.length h
  cases x with
  | loopStart id =>
    rw [Item.label, startPar_eq, List.length_append] at this
    simp [startLabel] at this
    omega
  | loopEnd id =>
    rw [Item.label, closePar_eq, List.length_append] at this
    simp [startLabel] at this
    omega
  | op => cases hx
  | print => cases hx
  | input => cases hx
  | halt => cases hx

theorem before_of_mem {above : List Item} {x : Item} (h : x ∈ above) (rest : List Item) :
    before (above ++ rest) x = before above x := by
  induction above with
  | nil => cases h
  | cons y above ih =>
    by_cases hyx : y = x
    · subst hyx
      simp [before]
    · have hmem := (List.mem_cons.mp h).resolve_left (Ne.symm hyx)
      rw [List.cons_append, before, before, List.takeWhile_cons_of_pos (by simpa using hyx),
        List.takeWhile_cons_of_pos (by simpa using hyx)]
      exact congrArg (y :: ·) (ih hmem)

theorem before_snoc {above : List Item} {x : Item} (h : x ∉ above) (rest : List Item) :
    before (above ++ x :: rest) x = above := by
  induction above with
  | nil => simp [before]
  | cons y above ih =>
    rw [List.mem_cons, not_or] at h
    rw [List.cons_append, before, List.takeWhile_cons_of_pos (by simpa using Ne.symm h.1)]
    exact congrArg (y :: ·) (ih h.2)

/-- The first pass has read the items `above`. -/
structure Counting (above : List Item) (s : FirstPass) : Prop where
  dimension : s.currentDimension % 2 ^ 64 = (codeStart + counted above) % 2 ^ 64
  entry : s.addressesOfLabels startLabel = some 30002
  named : Named s.addressesOfLabels
  labels : ∀ x ∈ above, x.isBracket = true → s.addressesOfLabels x.label = some (recorded above x)

theorem preamble_counting : ∃ s, preamble.foldlM firstPassLine .start = .ok s ∧ Counting [] s := by
  have hskip : firstPassLine .start ".skip 30000".toList = .ok (FirstPass.start.count 30000) := by
    have hwords : words (cutComment ".skip 30000".toList) = [skipDirective, "30000".toList] := by decide
    have hsize : stoull "30000".toList = .ok 30000 := by decide
    have hhead : endsIn ':' skipDirective = false := by decide
    simp only [firstPassLine, hwords, hhead, hsize, Bool.false_eq_true, if_false, if_true]
    rfl
  have hentry : firstPassLine (FirstPass.start.count 30000) "start:".toList =
      .ok ((FirstPass.start.count 30000).define startLabel) := by
    have hwords : words (cutComment "start:".toList) = ["start:".toList] := by decide
    have hhead : endsIn ':' "start:".toList = true := by decide
    have hname : ("start:".toList).dropLast = startLabel := by decide
    simp only [firstPassLine, hwords, hhead, hname, if_true]
  refine ⟨_, foldlM_cons_eq_ok.mpr ⟨_, hskip, foldlM_cons_eq_ok.mpr ⟨_, hentry, rfl⟩⟩, rfl, rfl, ?_, by simp⟩
  intro name hname
  rw [define_labels] at hname
  by_cases heq : name = startLabel
  · subst heq
    exact .inl rfl
  · rw [Function.update_of_ne heq] at hname
    cases hname

theorem Counting.step {above : List Item} {s : FirstPass} (h : Counting above s) {x : Item}
    (hx : x.isBracket = true → x ∉ above) :
    ∃ s', x.lines.foldlM firstPassLine s = .ok s' ∧ Counting (above ++ [x]) s' := by
  obtain ⟨s', hs', hdim, hlabels⟩ := firstPass_item h.named x
  refine ⟨s', hs', ?_, ?_, ?_, ?_⟩
  · have := h.dimension
    rw [hdim, counted_append, counted_cons, counted_nil]
    omega
  · rw [hlabels]
    split
    next hb => rw [Function.update_of_ne (Ne.symm (label_ne_start hb)), h.entry]
    next => exact h.entry
  · rw [hlabels]
    split
    next hb =>
      intro name hname
      by_cases heq : name = x.label
      · rw [heq]
        exact (labelWord_label hb).head
      · rw [Function.update_of_ne heq] at hname
        exact h.named name hname
    next => exact h.named
  · intro y hy hyb
    rw [hlabels]
    rcases List.mem_append.mp hy with hmem | hmem
    · have hold : s.addressesOfLabels y.label = some (recorded (above ++ [x]) y) := by
        rw [recorded, before_of_mem hmem, h.labels y hmem hyb, recorded]
      split
      next hb =>
        have hne : y.label ≠ x.label := by
          intro heq
          rw [label_injective hyb hb heq] at hmem
          exact hx hb hmem
        rw [Function.update_of_ne hne, hold]
      next => exact hold
    · rw [List.mem_singleton] at hmem
      subst hmem
      have hdim := h.dimension
      rw [if_pos hyb, Function.update_self, recorded, before_snoc (hx hyb)]
      refine congrArg some (UInt16.toNat_inj.mp ?_)
      rw [UInt16.toNat_ofNat', UInt16.toNat_ofNat']
      omega

theorem Counting.run {above xs : List Item} {s : FirstPass} (h : Counting above s)
    (hunique : UniqueBrackets (above ++ xs)) :
    ∃ s', (allLines xs).foldlM firstPassLine s = .ok s' ∧ Counting (above ++ xs) s' := by
  induction xs generalizing above s with
  | nil => exact ⟨s, rfl, by rwa [List.append_nil]⟩
  | cons x xs ih =>
    obtain ⟨u, hu, hcount⟩ := h.step fun hb => hunique.notin hb
    rw [List.append_cons] at hunique ⊢
    obtain ⟨s', hs', hcount'⟩ := ih hcount hunique
    exact ⟨s', foldlM_append_eq_ok.mpr ⟨u, hu, hs'⟩, hcount'⟩

/-! ### The second pass -/

/-- The second pass on an item emits its code. -/
theorem secondPass_item {labels : Labels} (t : SecondPass) {target : Item → MemAddr} {x : Item}
    (hx : x.Fits)
    (hlabel : x.isBracket = true → labels x.partner.label = some (target x.partner)) :
    ∃ t', x.lines.foldlM (secondPassLine labels) t = .ok t' ∧ t'.codes = t.codes ++ x.code target := by
  have hsingle : ∀ {line : Str} {part : List Opcode}, secondPassLine labels t line = .ok (t.emit part) →
      ∃ t', [line].foldlM (secondPassLine labels) t = .ok t' ∧ t'.codes = t.codes ++ part := fun hline =>
    ⟨_, foldlM_cons_eq_ok.mpr ⟨_, hline, rfl⟩, rfl⟩
  have hbracket : ∀ {name jump goal : Str} {opcode : Opcode} {addr : MemAddr}, LabelWord name →
      LabelWord goal → findOpcode jump 1 = some opcode → labels goal = some addr →
      ∃ t', [name ++ ":".toList, "CMP [A], 0".toList, written jump [goal]].foldlM (secondPassLine labels) t =
          .ok t' ∧ t'.codes = t.codes ++ ([0xB2, 3, 1, 0, 0] ++ opcode :: 2 :: addressBytes addr) := by
    intro name jump goal opcode addr hname hgoal hop haddr
    have hcmp : secondPassLine labels t (written "CMP".toList ["[A]".toList, "0".toList]) =
        .ok (t.emit [0xB2, 3, 1, 0, 0]) :=
      secondPassLine_written opcode_cmp clean_cmp
        (.cons (bytes_place labels .cell) (.cons (bytes_number labels (v := 0) ⟨by decide, by decide⟩) .nil))
    have hjump : secondPassLine labels (t.emit [0xB2, 3, 1, 0, 0]) (written jump [goal]) =
        .ok ((t.emit [0xB2, 3, 1, 0, 0]).emit (opcode :: 2 :: addressBytes addr)) :=
      secondPassLine_written hop (clean_word hgoal.clean) (.cons (hgoal.bytes haddr) .nil)
    refine ⟨_, foldlM_cons_eq_ok.mpr ⟨_, secondPassLine_label hname.clean,
      foldlM_cons_eq_ok.mpr ⟨_, hcmp, foldlM_cons_eq_ok.mpr ⟨_, hjump, rfl⟩⟩⟩, ?_⟩
    rw [emit_codes, emit_codes, List.append_assoc]
  cases x with
  | op o d src =>
    have hsrc : operandBytes labels src.text = .ok src.code := by
      cases src with
      | place p => exact bytes_place labels p
      | num v => exact bytes_number labels hx
    have hline : secondPassLine labels t (written o.text [d.text, src.text]) =
        .ok (t.emit (o.opcode :: [d.code, src.code].flatten)) :=
      secondPassLine_written (opcode_operation o) (clean_pair d src)
        (.cons (bytes_place labels d) (.cons hsrc .nil))
    rw [lines_op]
    obtain ⟨t', ht', hcodes⟩ := hsingle hline
    exact ⟨t', ht', by simpa [Item.code] using hcodes⟩
  | print =>
    have hline : secondPassLine labels t (written "PRINT".toList ["[A]".toList]) =
        .ok (t.emit [0x01, 3, 1]) :=
      secondPassLine_written opcode_print (clean_word (clean_place .cell)) (.cons (bytes_place labels .cell) .nil)
    exact hsingle hline
  | input =>
    have hline : secondPassLine labels t (written "INPUT".toList ["[A]".toList]) =
        .ok (t.emit [0x21, 3, 1]) :=
      secondPassLine_written opcode_input (clean_word (clean_place .cell)) (.cons (bytes_place labels .cell) .nil)
    exact hsingle hline
  | halt =>
    have hline : secondPassLine labels t (written "HALT".toList []) = .ok (t.emit [0xFF]) :=
      secondPassLine_written opcode_halt (by simp) .nil
    exact hsingle hline
  | loopStart id =>
    rw [lines_loopStart]
    exact hbracket (labelWord_startPar id) (labelWord_closePar id) opcode_je (hlabel rfl)
  | loopEnd id =>
    rw [lines_loopEnd]
    exact hbracket (labelWord_closePar id) (labelWord_startPar id) opcode_jne (hlabel rfl)

theorem secondPass_items {labels : Labels} {target : Item → MemAddr} {xs : List Item}
    (hxs : ∀ x ∈ xs, x.Fits)
    (hlabels : ∀ x ∈ xs, x.isBracket = true → labels x.partner.label = some (target x.partner))
    (t : SecondPass) : ∃ t', (allLines xs).foldlM (secondPassLine labels) t = .ok t' ∧
      t'.codes = t.codes ++ xs.flatMap (Item.code target) := by
  induction xs generalizing t with
  | nil => exact ⟨t, rfl, by simp⟩
  | cons x xs ih =>
    obtain ⟨u, hu, hcodes⟩ := secondPass_item t (hxs x (List.mem_cons_self ..))
      (hlabels x (List.mem_cons_self ..))
    obtain ⟨t', ht', hcodes'⟩ := ih (fun y hy => hxs y (List.mem_cons_of_mem x hy))
      (fun y hy => hlabels y (List.mem_cons_of_mem x hy)) u
    refine ⟨t', foldlM_append_eq_ok.mpr ⟨u, hu, ht'⟩, ?_⟩
    rw [hcodes', hcodes, List.flatMap_cons, List.append_assoc]

theorem preamble_emits (labels : Labels) (t : SecondPass) :
    ∃ t', preamble.foldlM (secondPassLine labels) t = .ok t' ∧
      t'.codes = t.codes ++ List.replicate 30000 0 := by
  have hskip : secondPassLine labels t ".skip 30000".toList = .ok (t.emit (List.replicate 30000 0)) := by
    have hwords : instructionOf ".skip 30000".toList = [skipDirective, "30000".toList] := by decide
    have hsize : stoull "30000".toList = .ok 30000 := by decide
    simp only [secondPassLine, hwords, hsize, if_true]
    rfl
  have hentry : ∀ t, secondPassLine labels t "start:".toList = .ok t := by
    have hwords : instructionOf "start:".toList = [] := by decide
    intro t
    simp only [secondPassLine, hwords]
  exact ⟨_, foldlM_cons_eq_ok.mpr ⟨_, hskip, foldlM_cons_eq_ok.mpr ⟨_, hentry _, rfl⟩⟩, rfl⟩

/-- **The assembler makes the image of the items.** -/
theorem assemble_items {prog : List Item} (hbrackets : WellBracketed prog)
    (hfits : ∀ x ∈ prog, x.Fits) : asmToOpcodes (assembly prog) = .ok (image prog) := by
  obtain ⟨s₀, hs₀, hcount₀⟩ := preamble_counting
  obtain ⟨s, hs, hcount⟩ := hcount₀.run ((List.nil_append prog).symm ▸ hbrackets.unique)
  rw [List.nil_append] at hcount
  have hfirst : firstPass (getlines (assembly prog)) = .ok s := by
    rw [getlines_assembly]
    exact foldlM_append_eq_ok.mpr ⟨s₀, hs₀, hs⟩
  have hlabels : ∀ x ∈ prog, x.isBracket = true →
      withStart s.addressesOfLabels x.partner.label = some (recorded prog x.partner) := by
    intro x hx hb
    have hpb := Item.isBracket_partner hb
    rw [withStart, Function.update_of_ne (label_ne_start hpb)]
    exact hcount.labels _ (hbrackets.partner x hx hb) hpb
  obtain ⟨t₀, ht₀, hcodes₀⟩ := preamble_emits (withStart s.addressesOfLabels)
    ⟨1, header s.addressesOfLabels⟩
  obtain ⟨t, ht, hcodes⟩ := secondPass_items hfits hlabels t₀
  have hsecond : secondPass s.addressesOfLabels (getlines (assembly prog)) = .ok t := by
    rw [getlines_assembly]
    exact foldlM_append_eq_ok.mpr ⟨t₀, ht₀, ht⟩
  have hheader : header s.addressesOfLabels = [0x75, 0x32] := by
    rw [header, hcount.entry]
    rfl
  rw [asmToOpcodes, hfirst]
  show (secondPass s.addressesOfLabels (getlines (assembly prog)) >>= fun second => pure second.codes) = _
  rw [hsecond]
  show Except.ok t.codes = _
  rw [hcodes, hcodes₀, hheader, image, List.append_assoc]

/-- What the second pass takes has literals that are `int`s. -/
theorem secondPass_fits {labels : Labels} {xs : List Item} {t t' : SecondPass}
    (h : (allLines xs).foldlM (secondPassLine labels) t = .ok t') : ∀ x ∈ xs, x.Fits := by
  induction xs generalizing t with
  | nil => simp
  | cons x xs ih =>
    rw [allLines_cons] at h
    obtain ⟨u, hu, hxs⟩ := foldlM_append_eq_ok.mp h
    intro y hy
    rcases List.mem_cons.mp hy with rfl | hy
    · cases y with
      | op o d src =>
        cases src with
        | place p => trivial
        | num v =>
          rw [lines_op] at hu
          obtain ⟨u', hline, -⟩ := foldlM_cons_eq_ok.mp hu
          obtain ⟨part, hsecond, -⟩ := secondPassLine_eq_ok hline
          have hwords := instructionOf_written (clean_mnemonic (opcode_operation o)) (clean_pair d (.num v))
          cases hsecond with
          | skipped heq => rw [hwords] at heq; cases heq
          | skip heq =>
            have hlength := congrArg List.length (hwords.symm.trans heq)
            cases hlength
          | instruction heq hskip hop hcodes =>
            rw [hwords] at heq
            cases heq
            cases hcodes with
            | cons _ hrest =>
              cases hrest with
              | cons hcode _ => exact fits_of_bytes hcode
      | print => trivial
      | input => trivial
      | halt => trivial
      | loopStart id => trivial
      | loopEnd id => trivial
    · exact ih hxs y hy

/-- If the text of items assembles, it does so to their image. -/
theorem assembled_items {prog : List Item} {bytes : List Opcode} (hbrackets : WellBracketed prog)
    (h : asmToOpcodes (assembly prog) = .ok bytes) : (∀ x ∈ prog, x.Fits) ∧ bytes = image prog := by
  obtain ⟨first, second, -, hsecond, rfl⟩ := asmToOpcodes_eq_ok h
  have hfits : ∀ x ∈ prog, x.Fits := by
    unfold secondPass at hsecond
    rw [getlines_assembly] at hsecond
    obtain ⟨u, -, hitems⟩ := foldlM_append_eq_ok.mp hsecond
    exact secondPass_fits hitems
  refine ⟨hfits, ?_⟩
  rw [assemble_items hbrackets hfits] at h
  exact (Except.ok.inj h).symm

end CustomIsaVm.Brainfvck
