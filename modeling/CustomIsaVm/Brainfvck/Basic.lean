import CustomIsaVm.Assembler.Basic

/-! The Brainf*** compiler.

`Brainfvck::compile` translates its source character by character into assembly
text, rewrites that text twice and assembles it. The passes work on text here as
they do there: `generate` is the loop over the source, `applyOptimizations` merges
runs of equal commands, `applyLoopOptimizations` replaces clear and multiply
loops.

The counters of the passes are of type `int` and count characters of the source;
they are integers here, and the same for sources below 2 GiB. -/
namespace CustomIsaVm.Brainfvck
open Text

/-- The exceptions of `compile`: its own two, or one of the assembler. -/
inductive Error where
  | unmatchedClose
  | unmatchedOpen
  | assembler (e : Assembler.Error)
  deriving DecidableEq, Repr

def Error.what : Error → Option String
  | unmatchedClose => some "Unmatched ']' in Brainfvck code"
  | unmatchedOpen => some "Unmatched '[' in Brainfvck code"
  | assembler e => e.what

/-! ### Code generation -/

/-- The local variables of the loop over the source. -/
structure Codegen where
  codeTmp : Str
  numberOfPar : Nat
  parStack : List Nat

def Codegen.start : Codegen := ⟨".skip 30000\nstart:\nMOV A, 2\n".toList, 0, []⟩

/-- `code_tmp += text`. -/
def Codegen.emit (s : Codegen) (text : Str) : Codegen := {s with codeTmp := s.codeTmp ++ text}

/-- The switch over one character. -/
def translate (s : Codegen) (c : Char) : Except Error Codegen :=
  match c with
  | '>' => .ok (s.emit "ADD A, 1\n".toList)
  | '<' => .ok (s.emit "SUB A, 1\n".toList)
  | '+' => .ok (s.emit "ADD [A], 1\n".toList)
  | '-' => .ok (s.emit "SUB [A], 1\n".toList)
  | '.' => .ok (s.emit "PRINT [A]\n".toList)
  | ',' => .ok (s.emit "INPUT [A]\n".toList)
  | '[' =>
    let parId := s.numberOfPar
    let s := {s with numberOfPar := s.numberOfPar + 1, parStack := parId :: s.parStack}
    let s := s.emit ("start_par_".toList ++ decimal parId ++ ":\n".toList)
    let s := s.emit "CMP [A], 0\n".toList
    .ok (s.emit ("JE close_par_".toList ++ decimal parId ++ "\n".toList))
  | ']' =>
    match s.parStack with
    | [] => .error .unmatchedClose
    | parId :: parStack =>
      let s := {s with parStack := parStack}
      let s := s.emit ("close_par_".toList ++ decimal parId ++ ":\n".toList)
      let s := s.emit "CMP [A], 0\n".toList
      .ok (s.emit ("JNE start_par_".toList ++ decimal parId ++ "\n".toList))
  | _ => .ok s

/-- The text that code generation builds: every character of every line in turn. -/
def generate (source : Str) : Except Error Str := do
  let s ← (getlines source).flatten.foldlM translate .start
  if s.parStack ≠ [] then throw .unmatchedOpen
  return (s.emit "HALT\n".toList).codeTmp

/-! ### Merging runs -/

/-- The local variables of `apply_optimizations`. -/
structure Merging where
  optimizedCode : Str
  accumulatingMath : Bool
  accumulatingPtr : Bool
  accumulatedValue : Int

def Merging.start : Merging := ⟨[], false, false, 0⟩

/-- The lambda `flush`; it leaves the two flags alone when there is nothing to add. -/
def Merging.flush (s : Merging) : Merging :=
  let v := s.accumulatedValue
  if v = 0 then s
  else
    let text : Str :=
      if s.accumulatingMath then
        if 0 < v then "ADD [A], ".toList ++ decimalInt v ++ "\n".toList
        else "SUB [A], ".toList ++ decimalInt (-v) ++ "\n".toList
      else if s.accumulatingPtr then
        if 0 < v then "ADD A, ".toList ++ decimalInt v ++ "\n".toList
        else "SUB A, ".toList ++ decimalInt (-v) ++ "\n".toList
      else []
    ⟨s.optimizedCode ++ text, false, false, 0⟩

/-- A line that is not merged: what has been accumulated goes before it. -/
def Merging.copy (s : Merging) (line : Str) : Merging :=
  {s.flush with optimizedCode := s.flush.optimizedCode ++ line ++ "\n".toList}

/-- A line that adds `v` to the cell. -/
def Merging.math (s : Merging) (line : Str) (v : Int) : Merging :=
  let s := if !s.accumulatingMath && !s.accumulatingPtr then {s with accumulatingMath := true} else s
  if s.accumulatingMath then {s with accumulatedValue := s.accumulatedValue + v} else s.copy line

/-- A line that adds `v` to the pointer. -/
def Merging.ptr (s : Merging) (line : Str) (v : Int) : Merging :=
  let s := if !s.accumulatingMath && !s.accumulatingPtr then {s with accumulatingPtr := true} else s
  if s.accumulatingPtr then {s with accumulatedValue := s.accumulatedValue + v} else s.copy line

def mergeLine (s : Merging) (line : Str) : Merging :=
  if "ADD [A]".toList.isPrefixOf line then s.math line 1
  else if "SUB [A]".toList.isPrefixOf line then s.math line (-1)
  else if "ADD A".toList.isPrefixOf line then s.ptr line 1
  else if "SUB A".toList.isPrefixOf line then s.ptr line (-1)
  else s.copy line

def applyOptimizations (code : Str) : Str :=
  ((getlines code).foldl mergeLine .start).flush.optimizedCode

/-! ### Replacing loops -/

/-- `parse_par_id`: the number between `lead` and a colon. -/
def parseParId (line lead : Str) : Option Int :=
  if !lead.isPrefixOf line || line.getLast? != some ':' then none
  else fromChars ((line.drop lead.length).take (line.length - lead.length - 1))

/-- `parse_instr_arg`: the number after `lead`. -/
def parseInstrArg (line lead : Str) : Option Int :=
  if !lead.isPrefixOf line then none else fromChars (line.drop lead.length)

/-- A loop found at the front of the lines; `closeIdx` counts from there. -/
structure ParsedLoop where
  id : Int
  closeIdx : Nat
  body : List Str

/-- `try_parse_loop`, on the lines from the `i`-th on. -/
def tryParseLoop (lines : List Str) : Option ParsedLoop := do
  let id ← parseParId (← lines[0]?) "start_par_".toList
  let closeLabel := "close_par_".toList ++ decimalInt id
  if lines.length ≤ 6 then none
  if lines[1]? ≠ some "CMP [A], 0".toList ∨ lines[2]? ≠ some ("JE ".toList ++ closeLabel) then none
  let body := (lines.drop 3).takeWhile (· ≠ closeLabel ++ ":".toList)
  let closeIdx := 3 + body.length
  if lines.length ≤ closeIdx + 2 then none
  if lines[closeIdx + 1]? ≠ some "CMP [A], 0".toList ∨
      lines[closeIdx + 2]? ≠ some ("JNE start_par_".toList ++ decimalInt id) then none
  return ⟨id, closeIdx, body⟩

/-- What a multiply loop adds to the cell `offset` cells away, each time round. -/
structure CellMod where
  offset : Int
  value : Int
  deriving DecidableEq, Repr

/-- The entry for `offset` is changed, or a new one made. -/
def addMod (offset v : Int) : List CellMod → List CellMod
  | [] => [⟨offset, v⟩]
  | m :: mods => if m.offset = offset then ⟨offset, m.value + v⟩ :: mods else m :: addMod offset v mods

/-- One line of a body, given the pointer's offset and the entries so far. -/
def analyzeLine (s : Int × List CellMod) (line : Str) : Option (Int × List CellMod) :=
  let (ptr, mods) := s
  match parseInstrArg line "ADD A, ".toList with
  | some n => some (ptr + n, mods)
  | none => match parseInstrArg line "SUB A, ".toList with
    | some n => some (ptr - n, mods)
    | none => match parseInstrArg line "ADD [A], ".toList with
      | some n => some (ptr, addMod ptr n mods)
      | none => match parseInstrArg line "SUB [A], ".toList with
        | some n => some (ptr, addMod ptr (-n) mods)
        | none => none

/-- The entry of the loop's own cell, and the others. -/
def takeSelf : List CellMod → Option (CellMod × List CellMod)
  | [] => none
  | m :: mods =>
    if m.offset = 0 then some (m, mods)
    else (takeSelf mods).map fun (self, others) => (self, m :: others)

/-- `try_analyze_mult_body`, once the body is read. -/
def multMods (s : Int × List CellMod) : Option (List CellMod) :=
  if s.1 ≠ 0 then none
  else match takeSelf s.2 with
    | none => none
    | some (self, mods) => if self.value ≠ -1 then none else if mods = [] then none else some mods

def tryAnalyzeMultBody (body : List Str) : Option (List CellMod) := do
  multMods (← body.foldlM analyzeLine (0, []))

/-- The pointer moves by `d`. -/
def movePtr (d : Int) : List Str :=
  if 0 < d then ["ADD A, ".toList ++ decimalInt d]
  else if d < 0 then ["SUB A, ".toList ++ decimalInt (-d)]
  else []

/-- The loop of `emit_mul_replacement`, from the pointer's offset `cur` on. -/
def emitMods (cur : Int) : List CellMod → List Str
  | [] => movePtr (-cur)
  | m :: mods =>
    movePtr (m.offset - cur) ++
    (if m.value = 1 then ["ADD [A], B".toList]
    else if m.value = -1 then ["SUB [A], B".toList]
    else if mods = [] then ["MUL B, ".toList ++ decimalInt m.value, "ADD [A], B".toList]
    else ["MOV C, B".toList, "MUL C, ".toList ++ decimalInt m.value, "ADD [A], C".toList]) ++
    emitMods m.offset mods

def emitMulReplacement (mods : List CellMod) : List Str :=
  ["MOV B, [A]".toList, "MOV [A], 0".toList] ++
    emitMods 0 (mods.mergeSort fun a b => a.offset ≤ b.offset)

/-- What a loop is replaced by, if it is. -/
def replacement (body : List Str) : Option (List Str) :=
  if body = ["SUB [A], 1".toList] then some ["MOV [A], 0".toList]
  else if 2 ≤ body.length ∧ body[0]? = some "SUB [A], 1".toList then
    (tryAnalyzeMultBody body).map emitMulReplacement
  else none

/-- The loop over the lines; `skip` of them belong to a loop that has been replaced. -/
def replaceLoops : Nat → List Str → List Str
  | _, [] => []
  | skip + 1, _ :: lines => replaceLoops skip lines
  | 0, line :: lines =>
    match tryParseLoop (line :: lines) with
    | none => line :: replaceLoops 0 lines
    | some loop => match replacement loop.body with
      | none => line :: replaceLoops 0 lines
      | some out => out ++ replaceLoops (loop.closeIdx + 2) lines

def applyLoopOptimizations (code : Str) : Str := unlines (replaceLoops 0 (getlines code))

/-! ### The compiler -/

/-- Assembling, as part of `compile`. -/
def assemble (code : Str) : Except Error (List Opcode) :=
  match Assembler.asmToOpcodes code with
  | .ok bytes => .ok bytes
  | .error e => .error (.assembler e)

/-- `Brainfvck::compile`, up to writing the image to a file. -/
def compile (source : Str) : Except Error (List Opcode) := do
  let code ← generate source
  assemble (applyLoopOptimizations (applyOptimizations code))

end CustomIsaVm.Brainfvck
