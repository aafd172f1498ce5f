import Mathlib.Logic.Function.Basic
import CustomIsaVm.Machine.Basic

/-! The assembler.

`Assembler::asm_to_opcodes` reads its text twice. The first pass counts bytes and
records the address of every label, the second emits the bytes. The two passes
split a line into words, tell the kind of an operand and take a line for a label
each in its own way, and both ways are modelled as they are: `firstPassLine` and
`secondPassLine` are the bodies of the two loops. -/
namespace CustomIsaVm

/-! ### The tables of `main` -/

def instructionTable : List ((Str × Nat) × Opcode) :=
  [(("NOP".toList, 0), 0x00), (("MOV".toList, 2), 0x12), (("PRINT".toList, 1), 0x01),
    (("PRINTFLUSH".toList, 0), 0x10), (("ADD".toList, 2), 0x32), (("SUB".toList, 2), 0x52),
    (("MUL".toList, 2), 0x72), (("DIV".toList, 2), 0x92), (("INPUT".toList, 1), 0x21),
    (("JMP".toList, 1), 0x31), (("CMP".toList, 2), 0xB2), (("JE".toList, 1), 0x41),
    (("JNE".toList, 1), 0x51), (("JG".toList, 1), 0x61), (("JNG".toList, 1), 0x71),
    (("SPUSH".toList, 1), 0x81), (("SPOP".toList, 1), 0x91), (("HALLOC".toList, 2), 0xC2),
    (("HFREE".toList, 1), 0xA1), (("CALL".toList, 1), 0xB1), (("RET".toList, 0), 0x20),
    (("FBSET".toList, 2), 0xD2), (("FBSYNC".toList, 0), 0x30), (("HALT".toList, 0), 0xFF)]

def regmap : List (Str × UInt8) := [(['A'], 1), (['B'], 2), (['C'], 3), (['D'], 4)]

namespace Assembler
open Text

def findOpcode (mnemonic : Str) (nArgs : Nat) : Option Opcode := instructionTable.lookup (mnemonic, nArgs)

def findRegister (name : Str) : Option UInt8 := regmap.lookup name

/-! ### How assembling can fail -/

/-- The exceptions of `asm_to_opcodes`; `undefined` is the first pass looking at the
front of an operand with no characters. -/
inductive Error where
  | unknownMnemonic (line : Nat) (token : Str)
  | missingSkip
  | invalidSkip
  | labelNotFound (label : Str)
  | registerNotFound
  | badNumber (e : ParseError)
  | undefined
  deriving DecidableEq, Repr

/-- The message of an exception, where the text is the assembler's own. -/
def Error.what : Error → Option String
  | unknownMnemonic line token => some
    (" at " ++ toString line ++ ": error: unknown instruction mnemonic '" ++ String.ofList token ++ "'")
  | missingSkip => some "Missing argument for .skip directive"
  | invalidSkip => some "Invalid .skip directive"
  | labelNotFound label => some ("Label not found \"" ++ String.ofList label ++ "\"")
  | registerNotFound => some "Non existant register used"
  | badNumber _ | undefined => none

abbrev Asm := Except Error

/-- A number parser called from the assembler. -/
def parsed {α : Type} : Except ParseError α → Asm α
  | .ok v => .ok v
  | .error e => .error (.badNumber e)

/-! ### Words and operands -/

/-- `line.substr(0, line.find(';'))`. -/
def cutComment (line : Str) : Str := line.takeWhile (· ≠ ';')

/-- `s.back() == c`, of a string that may be empty. -/
def endsIn (c : Char) (s : Str) : Bool := s.getLast? == some c

/-- A comma at the end of an operand is dropped. -/
def popComma (arg : Str) : Str := if endsIn ',' arg then arg.dropLast else arg

/-- `arg.substr(1, arg.size() - 2)`. -/
def inside (arg : Str) : Str := arg.tail.dropLast

/-- The kind of an operand in brackets, by what stands between them. -/
def bracketType (inside : Str) : ArgType :=
  if (findRegister inside).isSome then .indirectReg
  else if inside.head?.any fun c => c.isDigit || c == '-' then .indirectMem
  else .indirectLbl

/-! ### The first pass -/

abbrev Labels := Str → Option MemAddr

/-- The local variables of the first loop. -/
structure FirstPass where
  lineNumber : Nat
  currentDimension : Nat
  addressesOfLabels : Labels

/-- The two bytes of the header are counted. -/
def FirstPass.start : FirstPass := ⟨1, 2, fun _ => none⟩

/-- `n` more bytes, in `std::size_t`. -/
def FirstPass.count (s : FirstPass) (n : Nat) : FirstPass :=
  {s with currentDimension := (s.currentDimension + n) % 2 ^ 64, lineNumber := s.lineNumber + 1}

def FirstPass.define (s : FirstPass) (label : Str) : FirstPass :=
  {s with
    addressesOfLabels :=
      Function.update s.addressesOfLabels label (some (UInt16.ofNat s.currentDimension))
    lineNumber := s.lineNumber + 1}

/-- The kind the first pass gives to an operand. -/
def firstPassType (labels : Labels) (arg : Str) : Asm ArgType :=
  if (findRegister arg).isSome then .ok .register
  else if (labels arg).isSome || arg.head?.any fun c => c.isAlpha || c == '_' then .ok .address
  else if arg = [] then .error .undefined
  else if arg.head? = some '[' ∧ endsIn ']' arg then .ok (bracketType (inside arg))
  else .ok .number

/-- `sizeof(Opcode)`, and two or three bytes for every operand. -/
def instructionSize (argTypes : List ArgType) : Nat :=
  1 + (argTypes.map fun t => 1 + (1 + t.isMemory.toNat)).sum

def skipDirective : Str := ".skip".toList

def firstPassLine (s : FirstPass) (line : Str) : Asm FirstPass :=
  match words (cutComment line) with
  | [] => .ok s
  | firstTok :: args =>
    if endsIn ':' firstTok then .ok (s.define firstTok.dropLast)
    else if firstTok = skipDirective then
      match args with
      | [] => .error .missingSkip
      | sizeStr :: _ => do
        let n ← parsed (stoull sizeStr)
        return s.count n
    else do
      let argTypes ← args.mapM fun arg => firstPassType s.addressesOfLabels (popComma arg)
      match findOpcode firstTok argTypes.length with
      | some _ => return s.count (instructionSize argTypes)
      | none => throw (.unknownMnemonic s.lineNumber firstTok)

def firstPass (lines : List Str) : Asm FirstPass := lines.foldlM firstPassLine .start

/-! ### The header -/

def startLabel : Str := "start".toList

/-- `addresses_of_labels["start"]` enters the label when it is missing. -/
def withStart (labels : Labels) : Labels :=
  Function.update labels startLabel (some ((labels startLabel).getD 0))

/-- The entry point: the label `start`, or the first byte after the header. -/
def header (labels : Labels) : List Opcode :=
  let start := (labels startLabel).getD 0
  [highByte start.toNat, if start = 0 then 2 else lowByte start.toNat]

/-! ### The second pass -/

/-- The kind `instruction_to_opcode` gives to an operand. -/
def operandType (arg : Str) : ArgType :=
  match fromChars arg with
  | some temp => if 0xFF < temp then .number16 else .number
  | none =>
    if '[' ∈ arg ∧ ']' ∈ arg then bracketType (inside arg)
    else if (arg.head?.any Char.isDigit) || (arg.head? == some '-' && decide (1 < arg.length)) then .number
    else if (findRegister arg).isSome then .register
    else .address

/-- The two bytes of an address. -/
def addressBytes (addr : MemAddr) : List Opcode := [highByte addr.toNat, lowByte addr.toNat]

/-- The bytes of an operand that follow its kind. -/
def payloadBytes (labels : Labels) (arg : Str) : Asm (List Opcode) :=
  match operandType arg with
  | .address => lookup arg
  | .indirectLbl => lookup (inside arg)
  | .indirectMem => do
    let addr ← parsed (stoull (inside arg))
    return addressBytes (UInt16.ofNat addr)
  | .register => register arg
  | .indirectReg => register (inside arg)
  | .number => do
    let val ← parsed (stoi arg)
    return [UInt8.ofInt val]
  | .number16 => do
    let val ← parsed (stoi arg)
    return [UInt8.ofInt (val / 256), UInt8.ofInt val]
  | .other _ => return []
where
  lookup (label : Str) : Asm (List Opcode) :=
    match labels label with
    | some addr => return addressBytes addr
    | none => throw (.labelNotFound label)
  register (name : Str) : Asm (List Opcode) :=
    match findRegister name with
    | some number => return [number]
    | none => throw .registerNotFound

def operandBytes (labels : Labels) (arg : Str) : Asm (List Opcode) := do
  return (operandType arg).toByte :: (← payloadBytes labels arg)

def instructionToOpcode (line : Nat) (mnemonic : Str) (args : List Str) (labels : Labels) :
    Asm (List Opcode) :=
  match findOpcode mnemonic args.length with
  | none => throw (.unknownMnemonic line mnemonic)
  | some opcode => do
    let codes ← args.mapM (operandBytes labels)
    return opcode :: codes.flatten

/-- What the second pass makes of a comma. -/
def commaToSpace (c : Char) : Char := if c = ',' then ' ' else c

/-- The words the second pass acts on; none of a line it skips. -/
def instructionOf (line : Str) : List Str :=
  let line := cutComment line
  if endsIn ':' line then []
  else
    let instruction := words (line.map commaToSpace)
    if instruction.getLast?.any (endsIn ':') || instruction.head?.any (endsIn ':') then []
    else instruction

/-- The local variables of the second loop. -/
structure SecondPass where
  lineNumber : Nat
  codes : List Opcode

def SecondPass.emit (s : SecondPass) (part : List Opcode) : SecondPass :=
  ⟨s.lineNumber + 1, s.codes ++ part⟩

def secondPassLine (labels : Labels) (s : SecondPass) (line : Str) : Asm SecondPass :=
  match instructionOf line with
  | [] => .ok s
  | mnemonic :: args =>
    if mnemonic = skipDirective then
      match args with
      | [size] => do
        let skipSz ← parsed (stoull size)
        return s.emit (List.replicate skipSz 0)
      | _ => throw .invalidSkip
    else do
      let res ← instructionToOpcode s.lineNumber mnemonic args labels
      return s.emit res

def secondPass (labels : Labels) (lines : List Str) : Asm SecondPass :=
  lines.foldlM (secondPassLine (withStart labels)) ⟨1, header labels⟩

/-- `Assembler::asm_to_opcodes`. -/
def asmToOpcodes (code : Str) : Asm (List Opcode) := do
  let first ← firstPass (getlines code)
  let second ← secondPass first.addressesOfLabels (getlines code)
  return second.codes

/-- `Assembler::asm_file_to_code`: the lines of a file, behind the code read so far. -/
def asmFileToCode (file code : Str) : Str := code ++ unlines (getlines file)

end Assembler
end CustomIsaVm
