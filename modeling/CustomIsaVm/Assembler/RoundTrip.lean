import Mathlib.Data.List.TakeWhile
import CustomIsaVm.Assembler.Lines

/-! Assembling, then decoding.

`Decodes` reads a byte string to its end as `exec` reads its code, one
`readInstruction` after another; `step_reads` is what ties that reading to the
machine. `LineMeans` is the other side, what a line of the source stands for: no
instruction, `n` NOPs, or one opcode whose operands `OperandMeans` describes.
`assemble_decode` puts the two together. -/
namespace CustomIsaVm

/-! ### Decoding a whole image -/

/-- The bytes are these instructions and nothing else. -/
inductive Decodes : List MemCell → List Decoded → Prop
  | nil : Decodes [] []
  | cons {bytes rest : List MemCell} {d : Decoded} {ds : List Decoded}
      (hd : readInstruction bytes = some (d, rest)) (hrest : Decodes rest ds) : Decodes bytes (d :: ds)

/-- One way to read the bytes at most. -/
theorem Decodes.unique {bytes : List MemCell} {ds es : List Decoded} (h : Decodes bytes ds)
    (k : Decodes bytes es) : ds = es := by
  induction h generalizing es with
  | nil =>
    cases k with
    | nil => rfl
    | cons he => cases he
  | cons hd _ ih =>
    cases k with
    | nil => cases hd
    | cons he hrest =>
      rw [hd] at he
      cases he
      rw [ih hrest]

theorem readArgument_append {bytes rest : List MemCell} {a : RawArgument} (more : List MemCell)
    (h : readArgument bytes = some (a, rest)) : readArgument (bytes ++ more) = some (a, rest ++ more) := by
  obtain ⟨type, value⟩ := a
  obtain ⟨t, ht, ⟨hp, hv, rfl⟩ | ⟨v, hp, hv, rfl⟩ | ⟨high, low, hp, hv, rfl⟩⟩ := readArgument_cases h
  all_goals
    dsimp only at ht hp hv
    subst ht hv
    simp [readArgument, hp]

theorem readArguments_append {n : Nat} {bytes rest : List MemCell} {args : List RawArgument}
    (more : List MemCell) (h : readArguments n bytes = some (args, rest)) :
    readArguments n (bytes ++ more) = some (args, rest ++ more) := by
  induction n generalizing bytes args with
  | zero =>
    cases h
    rfl
  | succ n ih =>
    obtain ⟨a, args', mid, ha, hargs, rfl⟩ := readArguments_succ h
    simp [readArguments, readArgument_append more ha, ih hargs]

theorem readInstruction_append {bytes rest : List MemCell} {d : Decoded} (more : List MemCell)
    (h : readInstruction bytes = some (d, rest)) :
    readInstruction (bytes ++ more) = some (d, rest ++ more) := by
  cases bytes with
  | nil => cases h
  | cons opcode bytes =>
    obtain ⟨args, hargs, rfl⟩ := readInstruction_cons h
    simp [readInstruction, readArguments_append more hargs]

theorem Decodes.append {a b : List MemCell} {ds es : List Decoded} (h : Decodes a ds)
    (k : Decodes b es) : Decodes (a ++ b) (ds ++ es) := by
  induction h with
  | nil => exact k
  | cons hd _ ih => exact .cons (readInstruction_append b hd) ih

theorem Decodes.single {bytes : List MemCell} {d : Decoded} (h : readInstruction bytes = some (d, [])) :
    Decodes bytes [d] := .cons h .nil

theorem decodes_replicate (n : Nat) : Decodes (List.replicate n 0) (List.replicate n (0, [])) := by
  induction n with
  | zero => exact .nil
  | succ n ih => exact .cons (by rfl) ih

namespace Assembler
open Text Fold

/-! ### Operands -/

/-- A text of digits only. -/
def IsDecimal (s : Str) : Prop := s ≠ [] ∧ ∀ c ∈ s, c.isDigit = true

/-- The operand that an operand word stands for, under a label table. -/
structure OperandMeans (labels : Labels) (arg : Str) (a : RawArgument) : Prop where
  type : a.type = operandType arg
  register : operandType arg = .register → ∃ r, findRegister arg = some r ∧ a.value = r.toUInt16
  indirectReg : operandType arg = .indirectReg →
    ∃ r, findRegister (inside arg) = some r ∧ a.value = r.toUInt16
  address : operandType arg = .address → labels arg = some a.value
  indirectLbl : operandType arg = .indirectLbl → labels (inside arg) = some a.value
  literal : IsDecimal arg → number arg ≤ 65535 → a.value.toNat = number arg
  indirectMem : ∀ n, IsDecimal n → arg = '[' :: n ++ [']'] → number n ≤ 65535 →
    a.value.toNat = number n

theorem digits_of_isDecimal {s : Str} (h : IsDecimal s) : digits s = s :=
  List.takeWhile_eq_self_iff.mpr h.2

theorem IsDecimal.cons {s : Str} (h : IsDecimal s) : ∃ c t, s = c :: t ∧ c.isDigit = true := by
  cases s with
  | nil => exact absurd rfl h.1
  | cons c t => exact ⟨c, t, rfl, h.2 c (List.mem_cons_self ..)⟩

theorem fromChars_of_isDecimal {s : Str} (h : IsDecimal s) (hn : number s ≤ 65535) :
    fromChars s = some (number s : Int) := by
  obtain ⟨c, t, rfl, hc⟩ := h.cons
  rw [fromChars_of_not_minus, digits_of_isDecimal h, if_neg]
  · simp
    omega
  · rintro u heq
    cases heq
    cases hc

theorem stoull_of_isDecimal {s : Str} (h : IsDecimal s) (hn : number s ≤ 65535) :
    stoull s = .ok (number s) := by
  obtain ⟨c, t, rfl, hc⟩ := h.cons
  simp only [stoull, signed_of_isDigit t hc, digits_of_isDecimal h, Bool.false_eq_true, if_false]
  rw [if_neg h.1, if_neg (Nat.not_le.mpr (Nat.lt_of_le_of_lt hn (by decide)))]

theorem operandType_of_fromChars {arg : Str} {v : Int} (h : fromChars arg = some v) :
    operandType arg = if 0xFF < v then .number16 else .number := by
  simp only [operandType, h]

/-- A register is not a number. -/
theorem findRegister_of_isDigit {c : Char} {t : Str} (hc : c.isDigit = true) :
    findRegister (c :: t) = none := by
  rw [findRegister, List.lookup_eq_none_iff]
  intro e he
  have hregs : ∀ e ∈ regmap, e.1.head?.any Char.isDigit = false := by decide
  rw [bne_iff_ne]
  intro heq
  have hdigit := hregs e he
  rw [← heq, List.head?_cons, Option.any_some, hc] at hdigit
  cases hdigit

theorem inside_bracket (n : Str) : inside ('[' :: n ++ [']']) = n := by
  rw [inside, List.cons_append, List.tail_cons, List.dropLast_concat]

/-- A number in brackets is a place in memory. -/
theorem operandType_bracket {n : Str} (h : IsDecimal n) :
    operandType ('[' :: n ++ [']']) = .indirectMem := by
  obtain ⟨c, t, rfl, hc⟩ := h.cons
  have hfrom : fromChars ('[' :: (c :: t) ++ [']']) = none := by
    rw [fromChars_of_not_minus (by rintro u heq; cases heq)]
    simp [digits]
  simp only [operandType, hfrom]
  rw [if_pos (by simp), inside_bracket]
  simp [bracketType, findRegister_of_isDigit hc, hc]

theorem operandType_ne_other (arg : Str) (b : UInt8) : operandType arg ≠ .other b := by
  unfold operandType bracketType
  grind

/-- An operand of two bytes, read back. -/
theorem readArgument_two (type : ArgType) (high low : MemCell) (hp : type.payload = 2) :
    readArgument [type.toByte, high, low] = some (⟨type, word high low⟩, []) := by
  cases type <;> first | rfl | cases hp

/-- An operand of one byte, read back. -/
theorem readArgument_one (type : ArgType) (value : MemCell) (hp : type.payload = 1) :
    readArgument [type.toByte, value] = some (⟨type, value.toUInt16⟩, []) := by
  cases type <;> first | rfl | cases hp

theorem ofInt_toNat (v : Int) : (UInt8.ofInt v).toNat = (v % 256).toNat := by
  rw [UInt8.ofInt, UInt8.toNat_ofNat']
  omega

theorem word_addressBytes (addr : MemAddr) : word (highByte addr.toNat) (lowByte addr.toNat) = addr :=
  UInt16.toNat_inj.mp (word_bytes addr.toNat addr.toNat_lt)

theorem lookup_eq_ok {labels : Labels} {label : Str} {code : List Opcode}
    (h : payloadBytes.lookup labels label = .ok code) :
    ∃ addr, labels label = some addr ∧ code = addressBytes addr := by
  unfold payloadBytes.lookup at h
  split at h
  next addr haddr => cases h; exact ⟨addr, haddr, rfl⟩
  next => cases h

theorem register_eq_ok {name : Str} {code : List Opcode} (h : payloadBytes.register name = .ok code) :
    ∃ number, findRegister name = some number ∧ code = [number] := by
  unfold payloadBytes.register at h
  split at h
  next number hnumber => cases h; exact ⟨number, hnumber, rfl⟩
  next => cases h

/-- A literal word is of one of the two kinds of numbers. -/
theorem operandType_of_isDecimal {arg : Str} (h : IsDecimal arg) (hn : number arg ≤ 65535) :
    operandType arg = if 255 < number arg then .number16 else .number := by
  rw [operandType_of_fromChars (fromChars_of_isDecimal h hn)]
  exact if_congr (by omega) rfl rfl

theorem stoi_of_isDecimal {arg : Str} (h : IsDecimal arg) (hn : number arg ≤ 65535) :
    stoi arg = .ok (number arg : Int) := stoi_of_fromChars (fromChars_of_isDecimal h hn)

/-- What is emitted for an operand is that operand. -/
theorem operandBytes_means {labels : Labels} {arg : Str} {code : List Opcode}
    (h : operandBytes labels arg = .ok code) :
    ∃ a, readArgument code = some (a, []) ∧ OperandMeans labels arg a := by
  obtain ⟨payload, hpayload, h⟩ := bind_eq_ok.mp h
  cases h
  -- a literal or a number in brackets fixes the kind
  have hlit : IsDecimal arg → number arg ≤ 65535 →
      operandType arg = .number ∨ operandType arg = .number16 := fun hd hn => by
    rw [operandType_of_isDecimal hd hn]
    split <;> simp
  have hmem : ∀ n, IsDecimal n → arg = '[' :: n ++ [']'] → operandType arg = .indirectMem :=
    fun n hd heq => heq ▸ operandType_bracket hd
  unfold payloadBytes at hpayload
  cases htype : operandType arg with
  | other b => exact absurd htype (operandType_ne_other arg b)
  | address =>
    rw [htype] at hpayload
    obtain ⟨addr, haddr, rfl⟩ := lookup_eq_ok hpayload
    refine ⟨_, readArgument_two .address _ _ rfl, ?_⟩
    rw [word_addressBytes]
    constructor <;> grind
  | indirectLbl =>
    rw [htype] at hpayload
    obtain ⟨addr, haddr, rfl⟩ := lookup_eq_ok hpayload
    refine ⟨_, readArgument_two .indirectLbl _ _ rfl, ?_⟩
    rw [word_addressBytes]
    constructor <;> grind
  | register =>
    rw [htype] at hpayload
    obtain ⟨r, hr, rfl⟩ := register_eq_ok hpayload
    refine ⟨_, readArgument_one .register _ rfl, ?_⟩
    constructor <;> grind
  | indirectReg =>
    rw [htype] at hpayload
    obtain ⟨r, hr, rfl⟩ := register_eq_ok hpayload
    refine ⟨_, readArgument_one .indirectReg _ rfl, ?_⟩
    constructor <;> grind
  | indirectMem =>
    rw [htype] at hpayload
    obtain ⟨addr, haddr, hpayload⟩ := bind_eq_ok.mp hpayload
    cases hpayload
    refine ⟨_, readArgument_two .indirectMem _ _ rfl, ?_⟩
    rw [word_addressBytes]
    have hvalue : ∀ n, IsDecimal n → arg = '[' :: n ++ [']'] → number n ≤ 65535 →
        (UInt16.ofNat addr).toNat = number n := by
      rintro n hd rfl hn
      rw [parsed_eq_ok, inside_bracket, stoull_of_isDecimal hd hn] at haddr
      cases haddr
      rw [UInt16.toNat_ofNat']
      omega
    constructor <;> grind
  | number =>
    rw [htype] at hpayload
    obtain ⟨val, hval, hpayload⟩ := bind_eq_ok.mp hpayload
    cases hpayload
    refine ⟨_, readArgument_one .number _ rfl, ?_⟩
    have hvalue : IsDecimal arg → number arg ≤ 65535 →
        (UInt8.ofInt val).toUInt16.toNat = number arg := by
      intro hd hn
      rw [parsed_eq_ok, stoi_of_isDecimal hd hn] at hval
      cases hval
      have hle : number arg ≤ 255 := by
        by_contra hlt
        rw [operandType_of_isDecimal hd hn, if_pos (by omega)] at htype
        cases htype
      rw [UInt8.toNat_toUInt16, ofInt_toNat]
      omega
    constructor <;> grind
  | number16 =>
    rw [htype] at hpayload
    obtain ⟨val, hval, hpayload⟩ := bind_eq_ok.mp hpayload
    cases hpayload
    refine ⟨_, readArgument_two .number16 _ _ rfl, ?_⟩
    have hvalue : IsDecimal arg → number arg ≤ 65535 →
        (word (UInt8.ofInt (val / 256)) (UInt8.ofInt val)).toNat = number arg := by
      intro hd hn
      rw [parsed_eq_ok, stoi_of_isDecimal hd hn] at hval
      cases hval
      rw [word_toNat, ofInt_toNat, ofInt_toNat]
      omega
    constructor <;> grind

/-! ### Lines -/

/-- The instructions that a line stands for. -/
inductive LineMeans (labels : Labels) (line : Str) : List Decoded → Prop
  | skipped (hwords : instructionOf line = []) : LineMeans labels line []
  | skip {size : Str} {n : Nat} (hwords : instructionOf line = [skipDirective, size])
      (hn : stoull size = .ok n) : LineMeans labels line (List.replicate n (0x00, []))
  | instruction {mnemonic : Str} {args : List Str} {opcode : Opcode} {operands : List RawArgument}
      (hwords : instructionOf line = mnemonic :: args) (hskip : mnemonic ≠ skipDirective)
      (hop : findOpcode mnemonic args.length = some opcode)
      (hoperands : List.Forall₂ (OperandMeans labels) args operands) :
      LineMeans labels line [(opcode, operands)]

theorem encoded_means {labels : Labels} {args : List Str} {codes : List (List Opcode)}
    (h : Encoded labels args codes) : ∃ operands, readArguments args.length codes.flatten =
      some (operands, []) ∧ List.Forall₂ (OperandMeans labels) args operands := by
  induction h with
  | nil => exact ⟨[], rfl, .nil⟩
  | @cons arg code args codes hcode _ ih =>
    obtain ⟨a, ha, hmeans⟩ := operandBytes_means hcode
    obtain ⟨operands, hread, hall⟩ := ih
    have hfirst : readArgument (code ++ codes.flatten) = some (a, codes.flatten) :=
      readArgument_append codes.flatten ha
    refine ⟨a :: operands, ?_, .cons hmeans hall⟩
    rw [List.flatten_cons, List.length_cons]
    simp [readArguments, hfirst, hread]

/-- What is emitted for a line is what the line stands for. -/
theorem secondLine_decodes {labels : Labels} {line : Str} {part : List Opcode}
    (h : SecondLine labels line part) : ∃ ds, LineMeans labels line ds ∧ Decodes part ds := by
  cases h with
  | skipped hwords => exact ⟨[], .skipped hwords, .nil⟩
  | @skip size n hwords hn => exact ⟨_, .skip hwords hn, decodes_replicate n⟩
  | instruction hwords hskip hop hcodes =>
    obtain ⟨operands, hread, hall⟩ := encoded_means hcodes
    refine ⟨_, .instruction hwords hskip hop hall, .single ?_⟩
    rw [readInstruction, arity_of_findOpcode hop, hread]
    rfl

theorem secondPass_decodes {labels : Labels} {lines : List Str} {s : SecondPass}
    (h : secondPass labels lines = .ok s) :
    ∃ part dss, s.codes = header labels ++ part ∧
      List.Forall₂ (LineMeans (withStart labels)) lines dss ∧ Decodes part dss.flatten := by
  refine foldlM_along (I := fun above (s : SecondPass) => ∃ part dss, s.codes = header labels ++ part ∧
    List.Forall₂ (LineMeans (withStart labels)) above dss ∧ Decodes part dss.flatten)
    [] (fun above s line t hs ht => ?_) h ⟨[], [], by simp, .nil, .nil⟩
  obtain ⟨part, dss, hcodes, hmeans, hdecodes⟩ := hs
  obtain ⟨more, hline, hmore⟩ := secondPassLine_eq_ok ht
  obtain ⟨ds, hds, hdec⟩ := secondLine_decodes hline
  refine ⟨part ++ more, dss ++ [ds], ?_, List.rel_append hmeans (.cons hds .nil), ?_⟩
  · rw [hmore, hcodes, List.append_assoc]
  · rw [List.flatten_append, List.flatten_singleton]
    exact hdecodes.append hdec

theorem asmToOpcodes_eq_ok {code : Str} {bytes : List Opcode} (h : asmToOpcodes code = .ok bytes) :
    ∃ first second, firstPass (getlines code) = .ok first ∧
      secondPass first.addressesOfLabels (getlines code) = .ok second ∧ bytes = second.codes := by
  obtain ⟨first, hfirst, h⟩ := bind_eq_ok.mp h
  obtain ⟨second, hsecond, h⟩ := bind_eq_ok.mp h
  cases h
  exact ⟨first, second, hfirst, hsecond, rfl⟩

/-- **Assembling and then decoding gives the program back**, line by line, to the
end of the image. -/
theorem assemble_decode (code : Str) (bytes : List Opcode) (h : asmToOpcodes code = .ok bytes) :
    ∃ first dss, firstPass (getlines code) = .ok first ∧
      List.Forall₂ (LineMeans (withStart first.addressesOfLabels)) (getlines code) dss ∧
      Decodes (bytes.drop 2) dss.flatten := by
  obtain ⟨first, second, hfirst, hsecond, rfl⟩ := asmToOpcodes_eq_ok h
  obtain ⟨part, dss, hcodes, hmeans, hdecodes⟩ := secondPass_decodes hsecond
  refine ⟨first, dss, hfirst, hmeans, ?_⟩
  rw [hcodes]
  exact hdecodes

theorem assemble_decode_skip :
    ∃ first dss, firstPass (getlines "start:\nMOV [A], 500\n.skip 2\nJMP start".toList) = .ok first ∧
      List.Forall₂ (LineMeans (withStart first.addressesOfLabels))
        (getlines "start:\nMOV [A], 500\n.skip 2\nJMP start".toList) dss ∧
      Decodes ([0, 2, 0x12, 3, 1, 6, 1, 0xF4, 0, 0, 0x31, 2, 0, 2].drop 2) dss.flatten :=
  assemble_decode "start:\nMOV [A], 500\n.skip 2\nJMP start".toList
    [0, 2, 0x12, 3, 1, 6, 1, 0xF4, 0, 0, 0x31, 2, 0, 2] (by decide +kernel)

end Assembler
end CustomIsaVm
