import CustomIsaVm.Assembler.Passes
import CustomIsaVm.Assembler.RoundTrip
import CustomIsaVm.Assembler.Writing

/-! The images of the assembler.

An image is a header and instructions one after another. Which ones can the assembler
make? It never names a register that is not there, never emits an opcode outside its
table or a kind of operand without a name, and its header is not two zeros. Nothing else
is out of reach (`image_iff`): a label can be given any address, since a `.skip` that
ends in a colon moves the count of the first pass and is passed over by the second.
`prologue` does so for each address there is, and `text` writes an instruction down under
the signature that `instruction_lookup` has for its opcode. -/
namespace CustomIsaVm

/-- `VM::reverse_is`: the signature of each opcode. -/
def instructionLookup : Opcode → Str × Nat :=
  instructionTable.foldl (fun lookup key => Function.update lookup key.2 key.1) fun _ => ([], 0)

namespace Assembler
open Text Fold

/-- The table is read back from its opcodes. -/
theorem findOpcode_instructionLookup {opcode : Opcode} (h : opcode ∈ instructionTable.map Prod.snd) :
    findOpcode (instructionLookup opcode).1 (arity opcode) = some opcode := by
  have htable : ∀ opcode ∈ instructionTable.map Prod.snd,
      findOpcode (instructionLookup opcode).1 (arity opcode) = some opcode := by decide +kernel
  exact htable opcode h

/-! ### What can be emitted -/

/-- An operand that the second pass can emit. -/
def EmittedOperand (a : RawArgument) : Prop :=
  match a.type with
  | .register | .indirectReg => ∃ r ∈ regmap, a.value = r.2.toUInt16
  | .other _ => False
  | _ => True

/-- An instruction that the second pass can emit. -/
def Emittable (d : Decoded) : Prop := d.1 ∈ instructionTable.map Prod.snd ∧ ∀ a ∈ d.2, EmittedOperand a

theorem OperandMeans.emitted {labels : Labels} {arg : Str} {a : RawArgument} (h : OperandMeans labels arg a) :
    EmittedOperand a := by
  unfold EmittedOperand
  split
  next htype =>
    obtain ⟨r, hr, hvalue⟩ := h.register (h.type ▸ htype)
    exact ⟨_, mem_of_lookup hr, hvalue⟩
  next htype =>
    obtain ⟨r, hr, hvalue⟩ := h.indirectReg (h.type ▸ htype)
    exact ⟨_, mem_of_lookup hr, hvalue⟩
  next b htype => exact operandType_ne_other arg b (h.type ▸ htype)
  next => trivial

theorem LineMeans.emittable {labels : Labels} {line : Str} {ds : List Decoded} (h : LineMeans labels line ds)
    {d : Decoded} (hd : d ∈ ds) : Emittable d := by
  cases h with
  | skipped => cases hd
  | skip =>
    rw [List.eq_of_mem_replicate hd]
    exact ⟨by decide, by simp⟩
  | instruction hwords hskip hop hoperands =>
    rw [List.mem_singleton.mp hd]
    refine ⟨List.mem_map_of_mem (mem_instructionTable hop), fun a ha => ?_⟩
    obtain ⟨k, hk, rfl⟩ := List.mem_iff_getElem.mp ha
    exact (hoperands.get (hoperands.length_eq ▸ hk) hk).emitted

/-- The header is never two zeros. -/
theorem header_cases (labels : Labels) : ∃ high low, header labels = [high, low] ∧ (high ≠ 0 ∨ low ≠ 0) := by
  refine ⟨_, _, rfl, ?_⟩
  split
  next => exact .inr (by decide)
  next hstart =>
    by_contra hzero
    push Not at hzero
    refine hstart ?_
    rw [← word_addressBytes ((labels startLabel).getD 0), hzero.1, hzero.2]
    rfl

/-! ### Words for operands -/

/-- The label that has the address `v` when the count of the labels begins at `entry`. -/
def labelAt (entry v : MemAddr) : Str := 'L' :: decimal (v - entry).toNat

def registerName (v : MemAddr) : Str := ((regmap.find? fun e => e.2.toUInt16 == v).map Prod.fst).getD []

def bracketed (s : Str) : Str := '[' :: s ++ [']']

/-- An operand in the assembler's notation. A number of two bytes has to be above 255. -/
def operandText (entry : MemAddr) (a : RawArgument) : Str :=
  match a.type with
  | .number => decimal a.value.toNat
  | .number16 => decimal (65536 + a.value.toNat)
  | .register => registerName a.value
  | .indirectReg => bracketed (registerName a.value)
  | .indirectMem => bracketed (decimal a.value.toNat)
  | .address => labelAt entry a.value
  | .indirectLbl => bracketed (labelAt entry a.value)
  | .other _ => []

/-- An instruction in the assembler's notation. -/
def text (entry : MemAddr) (d : Decoded) : Str :=
  written (instructionLookup d.1).1 (d.2.map (operandText entry))

section Operands
variable {entry : MemAddr}

theorem plain_labelAt (v : MemAddr) : (labelAt entry v).all plainChar = true := by
  rw [labelAt, List.all_cons, plain_decimal]
  rfl

theorem registerName_cases {v : MemAddr} (h : ∃ r ∈ regmap, v = r.2.toUInt16) :
    ∃ r ∈ regmap, v = r.2.toUInt16 ∧ registerName v = r.1 ∧ findRegister r.1 = some r.2 := by
  have hregs : ∀ r ∈ regmap, registerName r.2.toUInt16 = r.1 ∧ findRegister r.1 = some r.2 := by decide
  obtain ⟨r, hr, rfl⟩ := h
  exact ⟨r, hr, rfl, hregs r hr⟩

theorem plain_bracketed {s : Str} (h : s.all plainChar = true) : Clean (bracketed s) := by
  refine clean_of_plain (List.cons_ne_nil _ _) ?_
  rw [bracketed, List.cons_append, List.all_cons, List.all_append, h]
  rfl

theorem plain_register : ∀ r ∈ regmap, r.1 ≠ [] ∧ r.1.all plainChar = true := by decide

theorem clean_operandText {a : RawArgument} (h : EmittedOperand a) : Clean (operandText entry a) := by
  unfold EmittedOperand at h
  unfold operandText
  cases htype : a.type with
  | number => exact clean_of_plain (decimal_ne_nil _) (plain_decimal _)
  | number16 => exact clean_of_plain (decimal_ne_nil _) (plain_decimal _)
  | register =>
    rw [htype] at h
    obtain ⟨r, hr, -, hname, -⟩ := registerName_cases h
    dsimp only
    rw [hname]
    exact clean_of_plain (plain_register r hr).1 (plain_register r hr).2
  | indirectReg =>
    rw [htype] at h
    obtain ⟨r, hr, -, hname, -⟩ := registerName_cases h
    dsimp only
    rw [hname]
    exact plain_bracketed (plain_register r hr).2
  | indirectMem => exact plain_bracketed (plain_decimal _)
  | address => exact clean_of_plain (List.cons_ne_nil _ _) (plain_labelAt _)
  | indirectLbl => exact plain_bracketed (plain_labelAt _)
  | other b =>
    rw [htype] at h
    exact h.elim

/-- The first pass gives every word a kind. -/
theorem firstPassType_of_ne (labels : Labels) {arg : Str} (h : arg ≠ []) :
    ∃ t, firstPassType labels arg = .ok t := by
  unfold firstPassType
  split_ifs <;> exact ⟨_, rfl⟩

theorem operandType_label {v : MemAddr} : operandType (labelAt entry v) = .address := by
  have hfrom : fromChars (labelAt entry v) = none := by
    rw [fromChars_of_not_minus (by rintro u heq; cases heq)]
    simp [labelAt, digits]
  have hopen : '[' ∉ labelAt entry v := by
    rintro (_ | ⟨_, hmem⟩)
    exact absurd (isDigit_of_mem_decimal hmem) (by decide)
  have hreg : findRegister (labelAt entry v) = none :=
    findRegister_long (by simp [labelAt, List.length_pos_iff, decimal_ne_nil])
  rw [operandType, hfrom]
  simp only [hopen, false_and, if_false, hreg]
  rfl

theorem fromChars_bracketed (s : Str) : fromChars (bracketed s) = none := by
  rw [bracketed, fromChars_of_not_minus (by rintro u heq; cases heq)]
  simp [digits]

theorem operandType_bracketed (s : Str) : operandType (bracketed s) = bracketType s := by
  simp only [operandType, fromChars_bracketed]
  rw [if_pos (by simp [bracketed]), bracketed, inside_bracket]

theorem isDecimal_decimal (n : Nat) : IsDecimal (decimal n) :=
  ⟨decimal_ne_nil n, fun _ hc => isDigit_of_mem_decimal hc⟩

theorem operandBytes_number {labels : Labels} (v : MemCell) :
    operandBytes labels (decimal v.toNat) = .ok [0, v] := by
  have hv := v.toNat_lt
  have hfrom : fromChars (decimal v.toNat) = some (v.toNat : Int) := by
    rw [fromChars_decimal, if_neg (by omega)]
  have htype : operandType (decimal v.toNat) = .number := by
    rw [operandType_of_fromChars hfrom, if_neg (by omega)]
  rw [operandBytes, payloadBytes, htype]
  simp only [stoi_of_fromChars hfrom, parsed]
  show Except.ok [0, UInt8.ofInt (v.toNat : Int)] = _
  rw [show UInt8.ofInt (v.toNat : Int) = v from UInt8.toNat_inj.mp (by rw [ofInt_toNat]; omega)]

theorem operandBytes_number16 {labels : Labels} (high low : MemCell) :
    operandBytes labels (decimal (65536 + (word high low).toNat)) = .ok [6, high, low] := by
  have hv := (word high low).toNat_lt
  generalize hn : 65536 + (word high low).toNat = n
  have hfrom : fromChars (decimal n) = some (n : Int) := by
    rw [fromChars_decimal, if_neg (by omega)]
  have htype : operandType (decimal n) = .number16 := by
    rw [operandType_of_fromChars hfrom, if_pos (by omega)]
  have hhigh : UInt8.ofInt ((n : Int) / 256) = high := by
    rw [← UInt8.toNat_inj, ofInt_toNat, ← hn, word_toNat]
    have := high.toNat_lt
    have := low.toNat_lt
    omega
  have hlow : UInt8.ofInt (n : Int) = low := by
    rw [← UInt8.toNat_inj, ofInt_toNat, ← hn, word_toNat]
    have := low.toNat_lt
    omega
  rw [operandBytes, payloadBytes, htype]
  simp only [stoi_of_fromChars hfrom, parsed]
  show Except.ok [6, UInt8.ofInt ((n : Int) / 256), UInt8.ofInt (n : Int)] = _
  rw [hhigh, hlow]

theorem toByte_ofByte (t : UInt8) : (ArgType.ofByte t).toByte = t := by
  unfold ArgType.ofByte
  split
  all_goals first
    | rfl
    | exact (UInt8.toNat_inj.mp ‹_›).symm

theorem operandBytes_register {labels : Labels} {r : Str × UInt8} (hr : r ∈ regmap) :
    operandBytes labels r.1 = .ok [1, r.2] ∧ operandBytes labels (bracketed r.1) = .ok [3, r.2] := by
  have hregs : ∀ r ∈ regmap, operandType r.1 = .register ∧ operandType (bracketed r.1) = .indirectReg ∧
      findRegister r.1 = some r.2 ∧ inside (bracketed r.1) = r.1 := by decide
  obtain ⟨hplain, hbracket, hfind, hinside⟩ := hregs r hr
  constructor
  · simp only [operandBytes, payloadBytes, hplain, payloadBytes.register, hfind]
    rfl
  · simp only [operandBytes, payloadBytes, hbracket, hinside, payloadBytes.register, hfind]
    rfl

theorem operandBytes_memory {labels : Labels} (v : MemAddr) :
    operandBytes labels (bracketed (decimal v.toNat)) = .ok (4 :: addressBytes v) := by
  have hv := v.toNat_lt
  have hdecimal := isDecimal_decimal v.toNat
  have htype : operandType (bracketed (decimal v.toNat)) = .indirectMem := operandType_bracket hdecimal
  have hsize : stoull (inside (bracketed (decimal v.toNat))) = .ok v.toNat := by
    rw [bracketed, inside_bracket, stoull_of_isDecimal hdecimal (by rw [number_decimal]; omega), number_decimal]
  simp only [operandBytes, payloadBytes, htype, hsize]
  show Except.ok (4 :: addressBytes (UInt16.ofNat v.toNat)) = _
  rw [UInt16.ofNat_toNat]

theorem operandBytes_label {labels : Labels} {v : MemAddr} (h : labels (labelAt entry v) = some v) :
    operandBytes labels (labelAt entry v) = .ok (2 :: addressBytes v) ∧
      operandBytes labels (bracketed (labelAt entry v)) = .ok (5 :: addressBytes v) := by
  have hbracket : operandType (bracketed (labelAt entry v)) = .indirectLbl := by
    rw [operandType_bracketed, bracketType,
      findRegister_long (by simp [labelAt, List.length_pos_iff, decimal_ne_nil])]
    rfl
  have hinside : inside (bracketed (labelAt entry v)) = labelAt entry v := inside_bracket _
  constructor
  · simp only [operandBytes, payloadBytes, operandType_label, payloadBytes.lookup, h]
    rfl
  · simp only [operandBytes, payloadBytes, hbracket, hinside, payloadBytes.lookup, h]
    rfl

theorem addressBytes_word (high low : MemCell) : addressBytes (word high low) = [high, low] := by
  have hlow := low.toNat_lt
  have hhigh := high.toNat_lt
  have hfirst : highByte (word high low).toNat = high := UInt8.toNat_inj.mp (by
    rw [highByte_toNat, word_toNat]
    omega)
  have hsecond : lowByte (word high low).toNat = low := UInt8.toNat_inj.mp (by
    rw [lowByte_toNat, word_toNat]
    omega)
  rw [addressBytes, hfirst, hsecond]

theorem toUInt16_injective {v w : UInt8} (h : v.toUInt16 = w.toUInt16) : v = w :=
  UInt8.toNat_inj.mp (by simpa using congrArg UInt16.toNat h)

/-- An operand of the image, written down and assembled again. -/
theorem operandBytes_text {labels : Labels} (hlabels : ∀ v, labels (labelAt entry v) = some v)
    {bytes rest : List MemCell} {a : RawArgument} (hread : readArgument bytes = some (a, rest))
    (h : EmittedOperand a) : ∃ code, bytes = code ++ rest ∧ operandBytes labels (operandText entry a) = .ok code := by
  obtain ⟨type, value⟩ := a
  obtain ⟨t, ht, hcases⟩ := readArgument_cases hread
  dsimp only at ht hcases
  obtain rfl : type.toByte = t := by rw [ht, toByte_ofByte]
  unfold EmittedOperand at h
  unfold operandText
  cases type with
  | other b => exact h.elim
  | number =>
    obtain ⟨hp, -⟩ | ⟨v, -, rfl, rfl⟩ | ⟨_, _, hp, -⟩ := hcases
    · cases hp
    · exact ⟨[0, v], rfl, by simpa using operandBytes_number v⟩
    · cases hp
  | register =>
    obtain ⟨hp, -⟩ | ⟨v, -, rfl, rfl⟩ | ⟨_, _, hp, -⟩ := hcases
    · cases hp
    · obtain ⟨r, hr, hvalue, hname, -⟩ := registerName_cases h
      obtain rfl := toUInt16_injective hvalue
      exact ⟨[1, r.2], rfl, by rw [hname]; exact (operandBytes_register hr).1⟩
    · cases hp
  | indirectReg =>
    obtain ⟨hp, -⟩ | ⟨v, -, rfl, rfl⟩ | ⟨_, _, hp, -⟩ := hcases
    · cases hp
    · obtain ⟨r, hr, hvalue, hname, -⟩ := registerName_cases h
      obtain rfl := toUInt16_injective hvalue
      exact ⟨[3, r.2], rfl, by rw [hname]; exact (operandBytes_register hr).2⟩
    · cases hp
  | number16 =>
    obtain ⟨hp, -⟩ | ⟨_, hp, -⟩ | ⟨high, low, -, rfl, rfl⟩ := hcases
    · cases hp
    · cases hp
    · exact ⟨[6, high, low], rfl, operandBytes_number16 high low⟩
  | address =>
    obtain ⟨hp, -⟩ | ⟨_, hp, -⟩ | ⟨high, low, -, rfl, rfl⟩ := hcases
    · cases hp
    · cases hp
    · exact ⟨2 :: addressBytes (word high low), by rw [addressBytes_word]; rfl, (operandBytes_label (hlabels _)).1⟩
  | indirectMem =>
    obtain ⟨hp, -⟩ | ⟨_, hp, -⟩ | ⟨high, low, -, rfl, rfl⟩ := hcases
    · cases hp
    · cases hp
    · exact ⟨4 :: addressBytes (word high low), by rw [addressBytes_word]; rfl, operandBytes_memory _⟩
  | indirectLbl =>
    obtain ⟨hp, -⟩ | ⟨_, hp, -⟩ | ⟨high, low, -, rfl, rfl⟩ := hcases
    · cases hp
    · cases hp
    · exact ⟨5 :: addressBytes (word high low), by rw [addressBytes_word]; rfl, (operandBytes_label (hlabels _)).2⟩

/-- An instruction of the image, written down and assembled again. -/
theorem instruction_text {labels : Labels} (hlabels : ∀ v, labels (labelAt entry v) = some v)
    {n : Nat} {bytes rest : List MemCell} {args : List RawArgument}
    (hread : readArguments n bytes = some (args, rest)) (h : ∀ a ∈ args, EmittedOperand a) :
    ∃ codes, bytes = codes.flatten ++ rest ∧ Encoded labels (args.map (operandText entry)) codes := by
  induction n generalizing bytes args with
  | zero =>
    cases hread
    exact ⟨[], rfl, .nil⟩
  | succ n ih =>
    obtain ⟨a, args', mid, ha, hargs, rfl⟩ := readArguments_succ hread
    obtain ⟨code, rfl, hcode⟩ := operandBytes_text hlabels ha (h a (List.mem_cons_self ..))
    obtain ⟨codes, rfl, hcodes⟩ := ih hargs fun b hb => h b (List.mem_cons_of_mem a hb)
    exact ⟨code :: codes, by simp, .cons hcode hcodes⟩

end Operands

/-! ### The text of an image -/

/-- Each address gets a label: the count of the first pass is at the entry point, modulo
2^16, and goes up by one from label to label. No byte is emitted. -/
def prologue (entry : MemAddr) : List Str :=
  (".skip ".toList ++ decimal (entry.toNat + 65534) ++ ":".toList) :: "start:".toList ::
    (List.range 65536).flatMap fun i => ['L' :: decimal i ++ ":".toList, ".skip 1:".toList]

/-- A source for the image with this entry point and these instructions. -/
def source (entry : MemAddr) (ds : List Decoded) : List Str := prologue entry ++ ds.map (text entry)

/-- A `.skip` that ends in a colon is counted. -/
theorem firstPassLine_skip (s : FirstPass) (n : Nat) (hn : n < 2 ^ 64) :
    firstPassLine s (".skip ".toList ++ decimal n ++ ":".toList) = .ok (s.count n) := by
  have hplain : ∀ c ∈ decimal n ++ ":".toList, isspace c = false ∧ c ≠ ';' := by
    intro c hc
    rcases List.mem_append.mp hc with hc | hc
    · have hdigit := isDigit_of_mem_decimal hc
      refine ⟨isspace_of_isDigit hdigit, ?_⟩
      rintro rfl
      exact absurd hdigit (by decide)
    · rw [List.mem_singleton.mp hc]
      decide
  have hwords : words (cutComment (".skip ".toList ++ decimal n ++ ":".toList)) =
      [skipDirective, decimal n ++ ":".toList] := by
    rw [List.append_assoc, cutComment_of_notin fun hmem => by
      rcases List.mem_append.mp hmem with hmem | hmem
      · exact absurd hmem (by decide)
      · exact (hplain _ hmem).2 rfl]
    show words (skipDirective ++ ' ' :: (decimal n ++ ":".toList)) = _
    have hskip : Clean skipDirective := clean_of_plain (by decide) (by decide)
    rw [words_word_space skipDirective _ ' ' hskip.space hskip.ne rfl,
      words_word _ (fun c hc => (hplain c hc).1) (by simp)]
  have hsize : stoull (decimal n ++ ":".toList) = .ok n := by
    obtain ⟨c, t, hcons, hc⟩ := exists_decimal_cons n
    have happend : stoull (c :: t ++ ':' :: []) = stoull (c :: t) :=
      stoull_append (isspace_of_isDigit hc) (by decide)
    rw [hcons, show c :: t ++ ":".toList = c :: t ++ ':' :: [] from rfl, happend, ← hcons, stoull, signed_decimal]
    simpa [decimal_ne_nil] using hn
  have hhead : endsIn ':' skipDirective = false := by decide
  simp only [firstPassLine, hwords, hhead, hsize, Bool.false_eq_true, if_false, if_true]
  rfl

/-- The first pass has read the prologue up to the label `n`. -/
structure Labelled (entry : MemAddr) (n : Nat) (s : FirstPass) : Prop where
  dimension : s.currentDimension = entry.toNat + 65536 + n
  start : s.addressesOfLabels startLabel = some entry
  labels : ∀ i < n, s.addressesOfLabels ('L' :: decimal i) = some (UInt16.ofNat (entry.toNat + 65536 + i))

theorem clean_labelled (i : Nat) : Clean ('L' :: decimal i) := by
  refine clean_of_plain (List.cons_ne_nil _ _) ?_
  rw [List.all_cons, plain_decimal]
  rfl

theorem Labelled.step {entry : MemAddr} {n : Nat} {s : FirstPass} (h : Labelled entry n s) (hn : n < 65536) :
    ∃ s', ['L' :: decimal n ++ ":".toList, ".skip 1:".toList].foldlM firstPassLine s = .ok s' ∧
      Labelled entry (n + 1) s' := by
  have hentry := entry.toNat_lt
  refine ⟨(s.define ('L' :: decimal n)).count 1, foldlM_cons_eq_ok.mpr ⟨_, firstPassLine_label (clean_labelled n),
    foldlM_cons_eq_ok.mpr ⟨_, firstPassLine_skip _ 1 (by decide), rfl⟩⟩, ?_, ?_, fun i hi => ?_⟩
  · rw [count_dimension, define_dimension, h.dimension]
    omega
  · rw [count_labels, define_labels, Function.update_of_ne (by rintro heq; cases heq), h.start]
  · rw [count_labels, define_labels, h.dimension]
    by_cases heq : i = n
    · rw [heq, Function.update_self]
    · rw [Function.update_of_ne fun hname => heq (decimal_injective (List.cons.inj hname).2)]
      exact h.labels i (by omega)

theorem Labelled.run {entry : MemAddr} {s : FirstPass} (h : Labelled entry 0 s) {n : Nat} (hn : n ≤ 65536) :
    ∃ s', ((List.range n).flatMap fun i => ['L' :: decimal i ++ ":".toList, ".skip 1:".toList]).foldlM
      firstPassLine s = .ok s' ∧ Labelled entry n s' := by
  induction n with
  | zero => exact ⟨s, rfl, h⟩
  | succ n ih =>
    obtain ⟨u, hu, hlabelled⟩ := ih (by omega)
    obtain ⟨s', hs', hstep⟩ := hlabelled.step (by omega)
    rw [List.range_succ, List.flatMap_append, List.flatMap_singleton]
    exact ⟨s', foldlM_append_eq_ok.mpr ⟨u, hu, hs'⟩, hstep⟩

theorem prologue_labelled (entry : MemAddr) :
    ∃ s, (prologue entry).foldlM firstPassLine .start = .ok s ∧ Labelled entry 65536 s := by
  have hentry := entry.toNat_lt
  have hstart : Labelled entry 0 ((FirstPass.start.count (entry.toNat + 65534)).define startLabel) := by
    refine ⟨?_, ?_, by simp⟩
    · rw [define_dimension, count_dimension]
      show (2 + (entry.toNat + 65534)) % 2 ^ 64 = _
      omega
    · rw [define_labels, count_dimension, Function.update_self]
      refine congrArg some (UInt16.toNat_inj.mp ?_)
      rw [UInt16.toNat_ofNat']
      show (2 + (entry.toNat + 65534)) % 2 ^ 64 % 2 ^ 16 = _
      omega
  have hclean : Clean startLabel := clean_of_plain (by decide) (by decide)
  obtain ⟨s, hs, hlabelled⟩ := hstart.run (Nat.le_refl 65536)
  exact ⟨s, foldlM_cons_eq_ok.mpr ⟨_, firstPassLine_skip _ _ (by omega),
    foldlM_cons_eq_ok.mpr ⟨_, firstPassLine_label hclean, hs⟩⟩, hlabelled⟩

theorem Labelled.labelAt {entry : MemAddr} {s : FirstPass} (h : Labelled entry 65536 s) (v : MemAddr) :
    s.addressesOfLabels (labelAt entry v) = some v := by
  rw [Assembler.labelAt, h.labels _ (v - entry).toNat_lt]
  refine congrArg some (UInt16.toNat_inj.mp ?_)
  have hv := v.toNat_lt
  have hentry := entry.toNat_lt
  rw [UInt16.toNat_ofNat', UInt16.toNat_sub]
  omega

/-- It is not emitted, as no line is that ends in a colon. -/
theorem secondPassLine_colon {labels : Labels} (t : SecondPass) {line : Str} (h : ';' ∉ line) :
    secondPassLine labels t (line ++ ":".toList) = .ok t := by
  have hcut : cutComment (line ++ ":".toList) = line ++ ":".toList := cutComment_of_notin (by simp [h])
  simp only [secondPassLine, instructionOf, hcut, endsIn_label, if_true]

theorem prologue_colon {entry : MemAddr} {line : Str} (h : line ∈ prologue entry) :
    ∃ front, line = front ++ ":".toList ∧ ∀ c ∈ front, c ≠ ';' ∧ c ≠ '\n' := by
  have hdecimal : ∀ (lead : Str) (n : Nat), (∀ c ∈ lead, c ≠ ';' ∧ c ≠ '\n') →
      ∀ c ∈ lead ++ decimal n, c ≠ ';' ∧ c ≠ '\n' := by
    intro lead n hlead c hc
    rcases List.mem_append.mp hc with hc | hc
    · exact hlead c hc
    · have hdigit := isDigit_of_mem_decimal hc
      constructor <;> (rintro rfl; exact absurd hdigit (by decide))
  rw [prologue, List.mem_cons, List.mem_cons, List.mem_flatMap] at h
  rcases h with rfl | rfl | ⟨i, -, h⟩
  · exact ⟨_, rfl, hdecimal _ _ (by simp)⟩
  · exact ⟨startLabel, rfl, by simp [startLabel]⟩
  · rw [List.mem_cons, List.mem_singleton] at h
    rcases h with rfl | rfl
    · exact ⟨['L'] ++ decimal i, rfl, hdecimal _ _ (by simp)⟩
    · exact ⟨".skip 1".toList, rfl, by simp⟩

theorem prologue_emits {labels : Labels} (entry : MemAddr) (t : SecondPass) :
    (prologue entry).foldlM (secondPassLine labels) t = .ok t := by
  have hall : ∀ lines : List Str, (∀ line ∈ lines, line ∈ prologue entry) →
      lines.foldlM (secondPassLine labels) t = .ok t := by
    intro lines hlines
    induction lines with
    | nil => rfl
    | cons line lines ih =>
      obtain ⟨front, rfl, hfront⟩ := prologue_colon (hlines line (List.mem_cons_self ..))
      exact foldlM_cons_eq_ok.mpr ⟨t, secondPassLine_colon t fun hmem => (hfront _ hmem).1 rfl,
        ih fun l hl => hlines l (List.mem_cons_of_mem _ hl)⟩
  exact hall _ fun _ hline => hline

/-! ### Both passes over the source -/

section Source
variable (entry : MemAddr)

theorem clean_operands {d : Decoded} (h : Emittable d) : ∀ w ∈ d.2.map (operandText entry), Clean w := by
  intro w hw
  obtain ⟨a, ha, rfl⟩ := List.mem_map.mp hw
  exact clean_operandText (h.2 a ha)

theorem firstPass_text {d : Decoded} (h : Emittable d) (hlen : d.2.length = arity d.1) (s : FirstPass) :
    ∃ n, firstPassLine s (text entry d) = .ok (s.count n) := by
  have hclean := clean_operands entry h
  have hkinds : ∀ words : List Str, (∀ w ∈ words, Clean w) →
      ∃ types, List.Forall₂ (fun arg t => firstPassType s.addressesOfLabels arg = .ok t) words types := by
    intro words hwords
    induction words with
    | nil => exact ⟨[], .nil⟩
    | cons w words ih =>
      obtain ⟨t, ht⟩ := firstPassType_of_ne s.addressesOfLabels (hwords w (List.mem_cons_self ..)).ne
      obtain ⟨types, htypes⟩ := ih fun v hv => hwords v (List.mem_cons_of_mem w hv)
      exact ⟨t :: types, .cons ht htypes⟩
  obtain ⟨types, htypes⟩ := hkinds _ hclean
  have hop := findOpcode_instructionLookup h.1
  rw [← hlen, ← List.length_map (operandText entry)] at hop
  exact ⟨_, firstPassLine_written hop hclean htypes⟩

/-- The instructions leave the labels as they are. -/
theorem firstPass_texts {ds : List Decoded} (h : ∀ d ∈ ds, Emittable d) (hlen : ∀ d ∈ ds, d.2.length = arity d.1)
    (s : FirstPass) : ∃ s', (ds.map (text entry)).foldlM firstPassLine s = .ok s' ∧
      s'.addressesOfLabels = s.addressesOfLabels := by
  induction ds generalizing s with
  | nil => exact ⟨s, rfl, rfl⟩
  | cons d ds ih =>
    obtain ⟨n, hn⟩ := firstPass_text entry (h d (List.mem_cons_self ..)) (hlen d (List.mem_cons_self ..)) s
    obtain ⟨s', hs', hlabels⟩ := ih (fun e he => h e (List.mem_cons_of_mem d he))
      (fun e he => hlen e (List.mem_cons_of_mem d he)) (s.count n)
    exact ⟨s', foldlM_cons_eq_ok.mpr ⟨_, hn, hs'⟩, hlabels⟩

/-- The second pass emits the bytes that were decoded. -/
theorem secondPass_texts {entry : MemAddr} {labels : Labels} (hlabels : ∀ v, labels (labelAt entry v) = some v)
    {part : List MemCell} {ds : List Decoded} (hdecodes : Decodes part ds) (h : ∀ d ∈ ds, Emittable d)
    (t : SecondPass) : ∃ t', (ds.map (text entry)).foldlM (secondPassLine labels) t = .ok t' ∧
      t'.codes = t.codes ++ part := by
  induction hdecodes generalizing t with
  | nil => exact ⟨t, rfl, by simp⟩
  | @cons bytes rest d ds hd _ ih =>
    have hemit := h d (List.mem_cons_self ..)
    cases bytes with
    | nil => cases hd
    | cons opcode bytes =>
      obtain ⟨args, hargs, rfl⟩ := readInstruction_cons hd
      obtain ⟨codes, rfl, hcodes⟩ := instruction_text hlabels hargs hemit.2
      have hop := findOpcode_instructionLookup hemit.1
      have hline : secondPassLine labels t (text entry (opcode, args)) = .ok (t.emit (opcode :: codes.flatten)) := by
        refine secondPassLine_written ?_ (clean_operands entry hemit) hcodes
        rw [List.length_map, (readArguments_length hargs).1]
        exact hop
      obtain ⟨t', ht', hemitted⟩ := ih (fun e he => h e (List.mem_cons_of_mem _ he)) (t.emit (opcode :: codes.flatten))
      refine ⟨t', foldlM_cons_eq_ok.mpr ⟨_, hline, ht'⟩, ?_⟩
      rw [hemitted, emit_codes]
      simp

theorem newline_notin_source {ds : List Decoded} (h : ∀ d ∈ ds, Emittable d) :
    ∀ line ∈ source entry ds, '\n' ∉ line := by
  intro line hline hmem
  rcases List.mem_append.mp hline with hline | hline
  · obtain ⟨front, rfl, hfront⟩ := prologue_colon hline
    rcases List.mem_append.mp hmem with hmem | hmem
    · exact (hfront _ hmem).2 rfl
    · exact absurd hmem (by decide)
  · obtain ⟨d, hd, rfl⟩ := List.mem_map.mp hline
    have hop := findOpcode_instructionLookup (h d hd).1
    rcases mem_written hmem with hmem | hmem | hmem | ⟨w, hw, hmem⟩
    · exact absurd ((clean_mnemonic hop).space _ hmem) (by decide)
    · cases hmem
    · cases hmem
    · exact absurd ((clean_operands entry (h d hd) w hw).space _ hmem) (by decide)

end Source

/-! ### Every image -/

theorem Decodes.arity {part : List MemCell} {ds : List Decoded} (h : Decodes part ds) :
    ∀ d ∈ ds, d.2.length = CustomIsaVm.arity d.1 := by
  induction h with
  | nil => simp
  | @cons bytes rest d ds hd _ ih =>
    intro e he
    rcases List.mem_cons.mp he with rfl | he
    · cases bytes with
      | nil => cases hd
      | cons opcode bytes =>
        obtain ⟨args, hargs, rfl⟩ := readInstruction_cons hd
        exact (readArguments_length hargs).1
    · exact ih e he

/-- What the assembler emits. -/
theorem assembled_emittable {code : Str} {bytes : List Opcode} (h : asmToOpcodes code = .ok bytes) :
    ∃ high low part ds, bytes = high :: low :: part ∧ (high ≠ 0 ∨ low ≠ 0) ∧ Decodes part ds ∧
      ∀ d ∈ ds, Emittable d := by
  obtain ⟨first, second, -, hsecond, rfl⟩ := asmToOpcodes_eq_ok h
  obtain ⟨part, dss, hcodes, hmeans, hdecodes⟩ := secondPass_decodes hsecond
  obtain ⟨high, low, hheader, hne⟩ := header_cases first.addressesOfLabels
  refine ⟨high, low, part, dss.flatten, by rw [hcodes, hheader]; rfl, hne, hdecodes, fun d hd => ?_⟩
  obtain ⟨ds, hds, hd⟩ := List.mem_flatten.mp hd
  obtain ⟨k, hk, rfl⟩ := List.mem_iff_getElem.mp hds
  exact (hmeans.get (hmeans.length_eq ▸ hk) hk).emittable hd

/-- What is made of the source of an image. -/
theorem asmToOpcodes_source {high low : Opcode} {part : List Opcode} {ds : List Decoded}
    (hne : high ≠ 0 ∨ low ≠ 0) (hdecodes : Decodes part ds) (h : ∀ d ∈ ds, Emittable d) :
    asmToOpcodes (unlines (source (word high low) ds)) = .ok (high :: low :: part) := by
  generalize hentry : word high low = entry
  obtain ⟨s, hs, hlabelled⟩ := prologue_labelled entry
  obtain ⟨first, hfirst, hlabels⟩ := firstPass_texts entry h (Decodes.arity hdecodes) s
  have hpass : firstPass (source entry ds) = .ok first := foldlM_append_eq_ok.mpr ⟨s, hs, hfirst⟩
  have hstart : first.addressesOfLabels startLabel = some entry := by
    rw [hlabels]
    exact hlabelled.start
  have hknown : ∀ v, withStart first.addressesOfLabels (labelAt entry v) = some v := by
    intro v
    refine withStart_of_some ?_
    rw [hlabels]
    exact hlabelled.labelAt v
  have hpos : 0 < entry.toNat := by
    rw [← hentry, word_toNat]
    by_contra hzero
    have hhigh : high = 0 := UInt8.toNat_inj.mp (show high.toNat = 0 by omega)
    have hlow : low = 0 := UInt8.toNat_inj.mp (show low.toNat = 0 by omega)
    exact hne.elim (absurd hhigh) (absurd hlow)
  have hheader : header first.addressesOfLabels = [high, low] := by
    rw [header_of_some hstart hpos, ← hentry, addressBytes_word]
  obtain ⟨t, ht, hemitted⟩ := secondPass_texts hknown hdecodes h ⟨1, header first.addressesOfLabels⟩
  have hsecond : secondPass first.addressesOfLabels (source entry ds) = .ok t :=
    foldlM_append_eq_ok.mpr ⟨_, prologue_emits entry _, ht⟩
  have hlines : getlines (unlines (source entry ds)) = source entry ds :=
    getlines_unlines _ (newline_notin_source entry h)
  refine bind_eq_ok.mpr ⟨first, by rw [hlines, hpass], bind_eq_ok.mpr ⟨t, by rw [hlines, hsecond], ?_⟩⟩
  rw [hemitted, hheader]
  rfl

/-- **The images of the assembler are exactly these**: a header other than two zeros, and
instructions of the table whose operands have a kind with a name and, where they name a
register, one that is there. -/
theorem image_iff (bytes : List Opcode) : (∃ code, asmToOpcodes code = .ok bytes) ↔
    ∃ high low part ds, bytes = high :: low :: part ∧ (high ≠ 0 ∨ low ≠ 0) ∧ Decodes part ds ∧
      ∀ d ∈ ds, Emittable d := by
  constructor
  · rintro ⟨code, h⟩
    exact assembled_emittable h
  · rintro ⟨high, low, part, ds, rfl, hne, hdecodes, h⟩
    exact ⟨_, asmToOpcodes_source hne hdecodes h⟩

end Assembler
end CustomIsaVm
