import Mathlib.Data.List.Basic
import CustomIsaVm.Lib.System
import CustomIsaVm.Machine.Basic

/-! `VM::exec`, one instruction at a time.

An instruction runs in `Exec`: it updates the machine and either completes or
stops, and a stop keeps the machine as it was left. Each case of the switch has
its definition, named after its mnemonic and taking the operands the case
fetches; `execute` is the switch and `step` one turn of the loop. `Machine.next`
adds the loop's guard, and `Machine.system` is the run. -/
namespace CustomIsaVm

abbrev Exec (α : Type) := EStateM Stop Machine α

namespace Exec

def raise {α : Type} (e : Error) : Exec α := throw (.throws e)

def raiseIf (c : Prop) [Decidable c] (e : Error) : Exec Unit := if c then raise e else pure ()

/-! ### RAM and registers -/

/-- `RAM[i]`, read. -/
def load (access : Nat → Access) (i : Nat) : Exec MemCell := fun m =>
  if i < ramSize then .ok (m.ram i) {m with touched := access i :: m.touched}
  else .error .undefined {m with touched := access i :: m.touched}

/-- `RAM[i] = v`. -/
def store (access : Nat → Access) (i : Nat) (v : MemCell) : Exec Unit := fun m =>
  if i < ramSize then
    .ok () {m with ram := Function.update m.ram i v, touched := access i :: m.touched}
  else .error .undefined {m with touched := access i :: m.touched}

theorem register_lt {arg : MemAddr} (h : 1 ≤ arg.toNat ∧ arg.toNat ≤ 5) : arg.toNat - 1 < 5 := by omega

/-- The index of `registers[arg - 1]`. -/
def registerIndex (arg : MemAddr) : Exec (Fin 5) :=
  if h : 1 ≤ arg.toNat ∧ arg.toNat ≤ 5 then pure ⟨arg.toNat - 1, register_lt h⟩ else throw .undefined

/-- What a `MemCell &` refers to. -/
inductive Cell where
  | register (r : Fin 5)
  | ram (i : Nat)
  deriving DecidableEq, Repr

def Cell.read : Cell → Exec MemCell
  | .register r => do return (← get).registers r
  | .ram i => load .load i

def Cell.write (v : MemCell) : Cell → Exec Unit
  | .register r => modify fun m => {m with registers := Function.update m.registers r v}
  | .ram i => store .store i v

/-- `get_gui`. -/
def getGui : Exec Bool := do return (← load .flag guiFlag) == 1

def printed (bytes : List MemCell) : Exec Unit := modify fun m => {m with cout := m.cout ++ bytes}

/-! ### Operands -/

/-- `proc.PC += n`. -/
def advance (n : MemAddr) : Exec Unit :=
  modify fun m => {m with proc := {m.proc with pc := m.proc.pc + n}}

def fetchArgument : Exec RawArgument := do
  let type := ArgType.ofByte (← load .fetch (← get).proc.pc.toNat)
  advance 1
  if type.payload = 2 then
    let pc := (← get).proc.pc
    let high ← load .fetch pc.toNat
    let low ← load .fetch (pc.toNat + 1)
    advance 2
    return ⟨type, word high low⟩
  else if type.payload = 1 then
    let value ← load .fetch (← get).proc.pc.toNat
    advance 1
    return ⟨type, value.toUInt16⟩
  else
    return ⟨type, 0⟩

def resolveWriteableArg (type : ArgType) (arg : MemAddr) : Exec Cell :=
  match type with
  | .register => do return .register (← registerIndex arg)
  | .address | .indirectMem => do return .ram (arg + (← get).proc.firstSector).toNat
  | .indirectLbl => do
    let addr := arg + (← get).proc.firstSector
    let high ← load .load addr.toNat
    let low ← load .load (addr.toNat + 1)
    return .ram ((← get).proc.firstSector.toNat + (word high low).toNat)
  | .indirectReg => do
    let r ← registerIndex arg
    return .ram ((← get).proc.firstSector.toNat + ((← get).registers r).toNat)
  | .number | .number16 | .other _ => raise (.unknownType type)

/-- The value of the cell an operand resolves to. -/
def cellValue (arg : RawArgument) : Exec MemCell := do
  (← resolveWriteableArg arg.type arg.value).read

/-- `arg.type == NUMBER ? arg.value : resolve_writeable_arg(..)`, as a byte. -/
def operandValue (arg : RawArgument) : Exec MemCell :=
  if arg.type = .number then return arg.value.toUInt8 else cellValue arg

/-- `immediate ? arg.value : resolve_writeable_arg(..)`, as a word. -/
def wordValue (immediate : Prop) [Decidable immediate] (arg : RawArgument) : Exec MemAddr :=
  if immediate then return arg.value else do return (← cellValue arg).toUInt16

/-! ### Data and arithmetic -/

def mov (dest src : RawArgument) : Exec Unit := do
  let srcVal ← operandValue src
  (← resolveWriteableArg dest.type dest.value).write srcVal

def print (el : RawArgument) : Exec Unit := do
  printed [← operandValue el]

def printflush : Exec Unit := printed [10]

/-- `resolve_writeable_arg(a) op= b_val`. -/
def updateCell (op : MemCell → MemCell → MemCell) (a : RawArgument) (bVal : MemCell) : Exec Unit := do
  let cell ← resolveWriteableArg a.type a.value
  cell.write (op (← cell.read) bVal)

def add (a b : RawArgument) : Exec Unit := do updateCell (· + ·) a (← operandValue b)

def sub (a b : RawArgument) : Exec Unit := do updateCell (· - ·) a (← operandValue b)

def mul (a b : RawArgument) : Exec Unit := do updateCell (· * ·) a (← operandValue b)

def div (a b : RawArgument) : Exec Unit := do
  let bVal ← operandValue b
  raiseIf (bVal = 0) .divideByZero
  updateCell (· / ·) a bVal

/-- `std::cin >> tmp`, narrowed to a byte. -/
def extractInput : Exec MemCell := fun m =>
  .ok (UInt8.ofInt m.cin.extract.1) {m with cin := m.cin.extract.2}

/-- The key pressed last, once. -/
def takeKey : Exec MemCell := fun m => .ok m.lastKey {m with lastKey := 0}

/-- What `INPUT` reads: a key in GUI mode with a window, also when that was closed since
(`window` is not reset), a number otherwise. -/
def inputValue : Exec MemCell := do
  if ← getGui then
    match (← get).window with
    | .uninitialised => throw .undefined
    | .null => extractInput
    | .opened => takeKey
  else extractInput

def input (arg : RawArgument) : Exec Unit := do
  let inputVal ← inputValue
  (← resolveWriteableArg arg.type arg.value).write inputVal

/-! ### Comparison and jumps -/

def cmp (arg1 arg2 : RawArgument) : Exec Unit := do
  let val1 ← operandValue arg1
  let val2 ← operandValue arg2
  modify fun m => {m with zero := val1 == val2, sign := decide (val2 < val1)}

/-- `proc.PC = proc.first_sector + offset`. -/
def jumpTo (offset : MemAddr) : Exec Unit :=
  modify fun m => {m with proc := {m.proc with pc := m.proc.firstSector + offset}}

def jmp (target : RawArgument) : Exec Unit := do
  jumpTo (← wordValue (target.type = .address) target)

/-- The four conditional jumps, by the condition on the flags `(zero, sign)`. -/
def jumpIf (condition : Bool → Bool → Bool) (arg : RawArgument) : Exec Unit := do
  let m ← get
  if condition m.zero m.sign then
    jumpTo (← wordValue (arg.type = .number ∨ arg.type = .address) arg)

def je : RawArgument → Exec Unit := jumpIf fun zero _ => zero

def jne : RawArgument → Exec Unit := jumpIf fun zero _ => !zero

def jg : RawArgument → Exec Unit := jumpIf fun _ sign => sign

def jng : RawArgument → Exec Unit := jumpIf fun _ sign => !sign

/-! ### Stack -/

/-- `1uz + (type == ADDRESS || type == INDIRECT_LBL || type == INDIRECT_MEM)`. -/
def stackWidth (type : ArgType) : Nat := 1 + type.isMemory.toNat

/-- `proc.SP -= n`. -/
def lowerSP (n : Nat) : Exec Unit :=
  modify fun m => {m with proc := {m.proc with sp := m.proc.sp - UInt16.ofNat n}}

/-- `proc.SP += n`. -/
def raiseSP (n : Nat) : Exec Unit :=
  modify fun m => {m with proc := {m.proc with sp := m.proc.sp + UInt16.ofNat n}}

def spush (arg : RawArgument) : Exec Unit := do
  let value ← wordValue (arg.type = .number) arg
  let dimToAlloc := stackWidth arg.type
  lowerSP dimToAlloc
  let proc := (← get).proc
  raiseIf (proc.sp < proc.stackLimit) .stackOverflow
  if dimToAlloc = 1 then
    store .store proc.sp.toNat (lowByte value.toNat)
  else
    store .store proc.sp.toNat (highByte value.toNat)
    store .store (proc.sp.toNat + 1) (lowByte value.toNat)

def spop (arg : RawArgument) : Exec Unit := do
  let dimToRelease := stackWidth arg.type
  let proc := (← get).proc
  raiseIf (proc.firstSector.toNat + proc.allocatedMemory < proc.sp.toNat + dimToRelease)
    .stackUnderflow
  if dimToRelease = 1 then
    let value ← load .load proc.sp.toNat
    (← resolveWriteableArg arg.type arg.value).write value
  else
    let high ← load .load proc.sp.toNat
    let low ← load .load (proc.sp.toNat + 1)
    (← resolveWriteableArg arg.type arg.value).write (word high low).toUInt8
  raiseSP dimToRelease

/-- The target is not an offset from `first_sector`, unlike that of a jump. -/
def call (arg : RawArgument) : Exec Unit := do
  raiseIf (arg.type ≠ .address) .nonLabelCall
  let retAddr := (← get).proc.pc
  lowerSP 2
  let proc := (← get).proc
  raiseIf (proc.sp < proc.stackLimit) .stackOverflow
  store .store proc.sp.toNat (highByte retAddr.toNat)
  store .store (proc.sp.toNat + 1) (lowByte retAddr.toNat)
  modify fun m => {m with proc := {m.proc with pc := arg.value}}

def ret : Exec Unit := do
  let proc := (← get).proc
  raiseIf (proc.firstSector.toNat + proc.allocatedMemory < proc.sp.toNat + 2) .stackUnderflow
  let high ← load .load proc.sp.toNat
  let low ← load .load (proc.sp.toNat + 1)
  raiseSP 2
  modify fun m => {m with proc := {m.proc with pc := word high low}}

/-! ### Heap -/

/-- As many states as a loop over a 16-bit cursor and RAM can go through: a loop
that runs longer has come back to one of them and never ends. -/
@[irreducible] def loopFuel : Nat := 65536 * 256 ^ ramSize

/-- The header at `at`: its size and its status byte. -/
def header (start : MemAddr) : Exec (Nat × MemCell) := do
  let high ← load .load start.toNat
  let low ← load .load (start.toNat + 1)
  let status ← load .load (start.toNat + 2)
  return (high.toNat * 256 + low.toNat, status)

/-- `cursor + dimension + heap_header_block_size`, narrowed to an address. -/
def nextChunk (cursor : MemAddr) (dimension : Nat) : MemAddr :=
  UInt16.ofNat (cursor.toNat + dimension + heapHeaderBlockSize)

/-- The search of `HALLOC`: the first block that is not owned and is large enough,
and its size. -/
def hallocScan (size : Nat) : Nat → MemAddr → Exec (MemAddr × Nat)
  | 0, _ => throw .endless
  | fuel + 1, cursor => do
    raiseIf ((← get).proc.heapLimit ≤ cursor) .heapOverflow
    let (dimension, status) ← header cursor
    if status = HeapReg.owned.toByte then hallocScan size fuel (nextChunk cursor dimension)
    else if size ≤ dimension then return (cursor, dimension)
    else hallocScan size fuel (nextChunk cursor dimension)

/-- A header is written. -/
def writeHeader (start : Nat) (size : Nat) (status : HeapReg) : Exec Unit := do
  store .store start (highByte size)
  store .store (start + 1) (lowByte size)
  store .store (start + 2) status.toByte

/-- The block found is split when more than a header would be left of it, else it is
handed out whole. -/
def carve (size chunk dimension : Nat) : Exec Unit :=
  if size + heapHeaderBlockSize < dimension then do
    writeHeader (chunk + heapHeaderBlockSize + size) (dimension - heapHeaderBlockSize - size) .free
    writeHeader chunk size .owned
  else writeHeader chunk dimension .owned

def halloc (placeToAlloc sizeToAlloc : RawArgument) : Exec Unit := do
  let size ← wordValue (sizeToAlloc.type = .number) sizeToAlloc
  let (chunk, dimension) ← hallocScan size.toNat loopFuel (← get).proc.heapStart
  carve size.toNat chunk.toNat dimension
  (← resolveWriteableArg placeToAlloc.type placeToAlloc.value).write
    (chunk + UInt16.ofNat heapHeaderBlockSize).toUInt8

/-- The loop of `HFREE`: a free chunk absorbs a free successor and is looked at
again; else the cursor moves on. -/
def coalesce : Nat → MemAddr → Exec Unit
  | 0, _ => throw .endless
  | fuel + 1, cursor => do
    let heapLimit := (← get).proc.heapLimit
    if cursor < heapLimit then
      let (dimension, status) ← header cursor
      let next := nextChunk cursor dimension
      if next < heapLimit then
        let (nextDimension, nextStatus) ← header next
        if status = HeapReg.free.toByte ∧ nextStatus = HeapReg.free.toByte then
          let newDimension := dimension + heapHeaderBlockSize + nextDimension
          store .store cursor.toNat (highByte newDimension)
          store .store (cursor.toNat + 1) (lowByte newDimension)
          coalesce fuel cursor
        else coalesce fuel next

def hfree (userstart : RawArgument) : Exec Unit := do
  let value ← wordValue (userstart.type = .address) userstart
  let regstart := value - UInt16.ofNat heapHeaderBlockSize
  raiseIf ((← load .load (regstart.toNat + 2)) ≠ HeapReg.owned.toByte) .freeingFree
  store .store (regstart.toNat + 2) HeapReg.free.toByte
  coalesce loopFuel (← get).proc.heapStart

/-! ### Framebuffer -/

/-- The pixel index an operand denotes. -/
def pixelIndex (index : RawArgument) : Exec MemAddr :=
  match index.type with
  | .number | .number16 => return index.value
  | .register => do
    let hi ← cellValue ⟨.register, index.value⟩
    let lo ← cellValue ⟨.register, index.value + 1⟩
    return word hi lo
  | .indirectReg => do
    let base := ((← get).registers (← registerIndex index.value)).toUInt16
    let realAddr := (← get).proc.firstSector + base
    return word (← load .load realAddr.toNat) (← load .load (realAddr.toNat + 1))
  | .indirectMem | .address => do
    let realAddr := (← get).proc.firstSector + index.value
    return word (← load .load realAddr.toNat) (← load .load (realAddr.toNat + 1))
  | .indirectLbl | .other _ => return 0

/-- The bound is checked on the operand's own value, not on the index it denotes. -/
def fbset (index color : RawArgument) : Exec Unit := do
  raiseIf (index.type = .indirectLbl) .labelPixelIndex
  raiseIf (¬ (← getGui)) .notInGuiMode
  let finalPixelIndex ← pixelIndex index
  let colorValue ← operandValue color
  raiseIf (VMconf.framebufferTotSize ≤ index.value.toNat) .framebufferOverflow
  store .pixel (framebufferStart + finalPixelIndex.toNat) colorValue

/-- `VMconf::COLORS[color_index]`. -/
def colorOf (index : MemCell) : Exec UInt32 :=
  match VMconf.colors[index.toNat]? with
  | some c => return c
  | none => throw .undefined

/-- The pixels `[i, i + n)` of the framebuffer, converted. -/
def convert (i : Nat) : Nat → Exec (List UInt32)
  | 0 => return []
  | n + 1 => do
    let c ← colorOf (← load .pixel (framebufferStart + i))
    return c :: (← convert (i + 1) n)

/-- The bytes of a text. -/
def bytesOf (s : String) : List MemCell := s.toList.map fun c => UInt8.ofNat c.toNat

/-- `mfb_wait_sync` and `mfb_update_ex`: whether the frame was shown. Each of them frees
a window that the user has closed, and neither may be given a window that is freed. -/
def updateWindow : Exec Bool := fun m =>
  match m.window with
  | .uninitialised => .error .undefined m
  | .null => .ok false m
  | .opened =>
    if m.destroyed then .error .undefined m
    else match m.events with
      | [] => .ok true m
      | e :: rest =>
        if e.frame = .missed then .error .undefined m
        else .ok (e.frame = .shown)
          {m with events := rest, lastKey := e.key.getD m.lastKey, destroyed := e.frame = .closed}

def fbsync : Exec Unit := do
  let buffer ← convert 0 VMconf.framebufferTotSize
  modify fun m => {m with hostDisplayBuffer := buffer}
  if !(← updateWindow) then printed (bytesOf "Finestra chiusa dall\x27utente.\n")

def halt : Exec Unit := modify fun m => {m with proc := {m.proc with running := false}}

/-! ### The loop -/

/-- The switch of `exec`. -/
def execute (opcode : Opcode) : Exec Unit :=
  match opcode.toNat with
  | 0x00 => pure ()
  | 0x12 => do let dest ← fetchArgument; let src ← fetchArgument; mov dest src
  | 0x01 => do let el ← fetchArgument; print el
  | 0x10 => printflush
  | 0x32 => do let a ← fetchArgument; let b ← fetchArgument; add a b
  | 0x52 => do let a ← fetchArgument; let b ← fetchArgument; sub a b
  | 0x72 => do let a ← fetchArgument; let b ← fetchArgument; mul a b
  | 0x92 => do let a ← fetchArgument; let b ← fetchArgument; div a b
  | 0x21 => do let arg ← fetchArgument; input arg
  | 0x31 => do let target ← fetchArgument; jmp target
  | 0xB2 => do let arg1 ← fetchArgument; let arg2 ← fetchArgument; cmp arg1 arg2
  | 0x41 => do let arg ← fetchArgument; je arg
  | 0x51 => do let arg ← fetchArgument; jne arg
  | 0x61 => do let arg ← fetchArgument; jg arg
  | 0x71 => do let arg ← fetchArgument; jng arg
  | 0x81 => do let arg ← fetchArgument; spush arg
  | 0x91 => do let arg ← fetchArgument; spop arg
  | 0xC2 => do let place ← fetchArgument; let size ← fetchArgument; halloc place size
  | 0xA1 => do let userstart ← fetchArgument; hfree userstart
  | 0xB1 => do let arg ← fetchArgument; call arg
  | 0x20 => ret
  | 0xD2 => do let index ← fetchArgument; let color ← fetchArgument; fbset index color
  | 0x30 => fbsync
  | 0xFF => halt
  | _ => do raise (.unknownOpcode (← get).row opcode)

/-- One turn of the loop. -/
def step : Exec Unit := do
  let opcode ← load .fetch (← get).proc.pc.toNat
  advance 1
  execute opcode
  modify fun m => {m with row := m.row + 1}

end Exec

/-- How the loop of `exec` ends: by HALT, by running past the code, or because an
instruction did not complete. -/
inductive Ending where
  | halted
  | unhalted
  | stopped (s : Stop)
  deriving DecidableEq, Repr

namespace Machine

/-- The guard of the loop. -/
def goesOn (m : Machine) : Bool := m.proc.running && decide (m.proc.pc < m.proc.lastCodeSector)

/-- The loop of `exec`: on to the next machine, or out. -/
def next (m : Machine) : Except Ending Machine :=
  if m.goesOn then
    match Exec.step m with
    | .ok _ m' => .ok m'
    | .error s _ => .error (.stopped s)
  else .error (if m.proc.running then .unhalted else .halted)

/-- What `exec` starts its loop with. `handle` is what opening a window returns. -/
def boot (vm : VM) (proc : Process) (cin : Stdin) (handle : Window) (events : List WindowEvent) :
    Machine :=
  { vm with
    proc := proc
    cin := cin
    cout := []
    events := events
    window := if vm.getGui then handle else .uninitialised
    destroyed := false
    hostDisplayBuffer := List.replicate VMconf.framebufferTotSize 0
    row := 1
    touched := [] }

/-- A headless run of `exec`. -/
def headless (vm : VM) (proc : Process) (cin : Stdin) : Machine := boot vm proc cin .null []

end Machine
end CustomIsaVm
