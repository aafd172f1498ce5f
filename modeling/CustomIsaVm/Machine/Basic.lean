import Mathlib.Data.List.Basic
import CustomIsaVm.Lib.Text

/-! The data of the virtual machine.

A `VM` is what the class holds: RAM, registers, flags, the allocator's free list
and the next process id. A `Machine` is what `VM::exec` works on: the VM, the
process it was given, the streams and the window of the host, and its own local
variables. RAM is a function whose first `ramSize` cells exist; reading or
writing past them is undefined behaviour of the C++ program and ends the
instruction with `Stop.undefined`.

`touched` is a history variable: every access an instruction makes to RAM is
recorded there, and nothing reads it. -/
namespace CustomIsaVm

abbrev MemCell := UInt8
abbrev Register := UInt8
abbrev Opcode := UInt8
/-- The 16-bit address bus. -/
abbrev MemAddr := UInt16

/-! ### Configuration -/

namespace VMconf

def programStackSizeBytes : Nat := 1000
def programHeapStartingSizeBytes : Nat := 1000
def framebufferXSize : Nat := 64
def framebufferYSize : Nat := 64
def framebufferTotSize : Nat := framebufferXSize * framebufferYSize

/-- The palette. -/
def colors : List UInt32 :=
  [0xFF000000, 0xFFFFFFFF, 0xFFFF0000, 0xFF00FF00, 0xFF0000FF, 0xFFFFCC00, 0xFFFF00FF, 0xFF00FFFF]

end VMconf

/-- `RAM(64'000)`. -/
def ramSize : Nat := 64000

def framebufferStart : Nat := ramSize - VMconf.framebufferTotSize

/-- The cell that says whether the VM runs headless (0) or with a window (1). -/
def guiFlag : Nat := ramSize - VMconf.framebufferTotSize - 1

/-! ### Words of two bytes, most significant first -/

/-- `(high << 8) | low`. -/
def word (high low : MemCell) : MemAddr := UInt16.ofNat (high.toNat * 256 + low.toNat)

/-- `(n >> 8) & 0xFF`. -/
def highByte (n : Nat) : MemCell := UInt8.ofNat (n / 256)

/-- `n & 0xFF`. -/
def lowByte (n : Nat) : MemCell := UInt8.ofNat n

@[simp] theorem word_toNat (high low : MemCell) : (word high low).toNat = high.toNat * 256 + low.toNat := by
  have hh := high.toNat_lt
  have hl := low.toNat_lt
  simp only [word, UInt16.toNat_ofNat']
  omega

@[simp] theorem highByte_toNat (n : Nat) : (highByte n).toNat = n / 256 % 256 := by
  simp [highByte]

@[simp] theorem lowByte_toNat (n : Nat) : (lowByte n).toNat = n % 256 := by
  simp [lowByte]

theorem word_bytes (n : Nat) (h : n < 65536) : (word (highByte n) (lowByte n)).toNat = n := by
  rw [word_toNat, highByte_toNat, lowByte_toNat]
  omega

/-! ### Operands -/

/-- What kind of operand follows; `other` is a byte that names no enumerator. -/
inductive ArgType where
  | number
  | register
  | address
  | indirectReg
  | indirectMem
  | indirectLbl
  | number16
  | other (b : UInt8)
  deriving DecidableEq, Repr

namespace ArgType

def toByte : ArgType → UInt8
  | number => 0
  | register => 1
  | address => 2
  | indirectReg => 3
  | indirectMem => 4
  | indirectLbl => 5
  | number16 => 6
  | other b => b

def ofByte (b : UInt8) : ArgType :=
  match b.toNat with
  | 0 => number
  | 1 => register
  | 2 => address
  | 3 => indirectReg
  | 4 => indirectMem
  | 5 => indirectLbl
  | 6 => number16
  | _ => other b

/-- `ADDRESS`, `INDIRECT_LBL` or `INDIRECT_MEM`: the operand names a place in the
segment. The stack instructions and the first pass of the assembler count these
as two bytes. -/
def isMemory : ArgType → Bool
  | address | indirectLbl | indirectMem => true
  | _ => false

/-- The kinds of operand that `resolve_writeable_arg` resolves to a cell. -/
def hasCell : ArgType → Bool
  | register | address | indirectReg | indirectMem | indirectLbl => true
  | number | number16 | other _ => false

/-- How many bytes `fetch_argument` reads after the kind. -/
def payload : ArgType → Nat
  | address | indirectLbl | indirectMem | number16 => 2
  | register | indirectReg | number => 1
  | other _ => 0

end ArgType

structure RawArgument where
  type : ArgType
  value : MemAddr
  deriving DecidableEq, Repr

/-! ### Heap blocks -/

/-- The status byte of a heap header. -/
inductive HeapReg where
  | free
  | owned
  deriving DecidableEq, Repr

def HeapReg.toByte : HeapReg → MemCell
  | free => 0
  | owned => 1

/-- `sizeof(MemAddr) + sizeof(HeapReg)`. -/
def heapHeaderBlockSize : Nat := 3

/-! ### Processes -/

structure Process where
  pid : Nat
  running : Bool
  firstSector : MemAddr
  lastCodeSector : MemAddr
  entryPoint : MemAddr
  allocatedMemory : Nat
  pc : MemAddr
  sp : MemAddr
  heapStart : MemAddr
  stackLimit : MemAddr
  heapLimit : MemAddr
  deriving DecidableEq, Repr

/-- `Process::Process`. -/
def Process.create (pid : Nat) (baseAddress : MemAddr) (bytecodeSize : Nat) (entryPoint : MemAddr) :
    Process :=
  let allocatedMemory :=
    bytecodeSize + VMconf.programHeapStartingSizeBytes + VMconf.programStackSizeBytes
  let heapStart := UInt16.ofNat (baseAddress.toNat + bytecodeSize)
  let sp := UInt16.ofNat (baseAddress.toNat + allocatedMemory)
  { pid := pid
    running := true
    firstSector := baseAddress
    lastCodeSector := UInt16.ofNat (baseAddress.toNat + bytecodeSize)
    entryPoint := entryPoint
    allocatedMemory := allocatedMemory
    pc := baseAddress + entryPoint
    sp := sp
    heapStart := heapStart
    stackLimit := sp - UInt16.ofNat VMconf.programStackSizeBytes
    heapLimit := UInt16.ofNat (heapStart.toNat + VMconf.programHeapStartingSizeBytes) }

/-- A value converted to `std::size_t`. -/
def toSize (n : Int) : Nat := (n % 18446744073709551616).toNat

/-- `heap_limit - heap_start`. -/
def Process.heapSize (p : Process) : Int := p.heapLimit.toNat - p.heapStart.toNat

/-- `Process::update`: the fields that were assigned already are read with their new
values. -/
def Process.update (p : Process) (baseAddress : MemAddr) : Process :=
  let bytecodeSize := toSize (p.allocatedMemory - p.heapSize - VMconf.programStackSizeBytes)
  let heapStart := UInt16.ofNat (baseAddress.toNat + bytecodeSize)
  let sp := baseAddress + (p.sp - p.firstSector)
  {p with
    firstSector := baseAddress
    lastCodeSector := UInt16.ofNat (baseAddress.toNat + bytecodeSize)
    allocatedMemory := toSize (p.allocatedMemory + p.heapSize)
    pc := baseAddress + (p.pc - p.firstSector)
    heapStart := heapStart
    sp := sp
    stackLimit := sp - UInt16.ofNat VMconf.programStackSizeBytes
    heapLimit := heapStart + (p.heapLimit - p.heapStart)}

/-- `proc.PC = proc.first_sector`, with which `exec` ends. -/
def Process.pushBack (p : Process) : Process := {p with pc := p.firstSector}

/-! ### The machine -/

structure MemoryBlock where
  startAddress : MemAddr
  size : Nat
  deriving DecidableEq, Repr

/-- The members of class `VM`, its loader and its allocator included. -/
structure VM where
  ram : Nat → MemCell
  registers : Fin 5 → Register
  zero : Bool
  sign : Bool
  lastKey : UInt8
  freeList : List MemoryBlock
  nextReadyPid : Nat

/-- `VM::VM`: all RAM up to the GUI flag is free. -/
def VM.fresh : VM :=
  { ram := fun _ => 0
    registers := fun _ => 0
    zero := false
    sign := false
    lastKey := 0
    freeList := [⟨0, ramSize - VMconf.framebufferTotSize - 1⟩]
    nextReadyPid := 1 }

/-- `VM::get_gui`. -/
def VM.getGui (vm : VM) : Bool := vm.ram guiFlag == 1

/-- `VM::set_gui`. -/
def VM.setGui (vm : VM) (guiStatus : Bool) : VM :=
  {vm with ram := Function.update vm.ram guiFlag (if guiStatus then 1 else 0)}

/-- The standard input stream. -/
structure Stdin where
  text : Str
  fail : Bool
  deriving DecidableEq, Repr

/-- `std::cin >> tmp` into an `int` that holds 0: blanks are skipped, then a sign
and digits are taken. A stream that has failed, or has no digits to offer, fails
and leaves 0; a number out of range fails and leaves the nearest `int`. -/
def Stdin.extract (s : Stdin) : Int × Stdin :=
  if s.fail then (0, s)
  else
    let (negative, t) := Text.signed s.text
    let rest := t.dropWhile Char.isDigit
    if Text.digits t = [] then (0, ⟨rest, true⟩)
    else
      let v : Int := if negative then -(Text.number t : Int) else Text.number t
      if v < -2147483648 then (-2147483648, ⟨rest, true⟩)
      else if 2147483647 < v then (2147483647, ⟨rest, true⟩)
      else (v, ⟨rest, false⟩)

/-- The local variable `window` of `exec`: not initialised without a GUI, else
what opening the window returned. -/
inductive Window where
  | uninitialised
  | null
  | opened
  deriving DecidableEq, Repr

/-- What becomes of a frame: it is shown, or the user closes the window, while
`mfb_update_ex` shows the frame or before that, while `mfb_wait_sync` waits. -/
inductive Frame where
  | shown
  | closed
  | missed
  deriving DecidableEq, Repr

/-- What the host's window system did by the time a frame is shown: the arrow key
pressed last, if any, and what became of the frame. -/
structure WindowEvent where
  key : Option UInt8
  frame : Frame
  deriving DecidableEq, Repr

/-- An access to RAM: of the instruction stream, of data, of the GUI flag, or of
the framebuffer by the framebuffer instructions. -/
inductive Access where
  | fetch (i : Nat)
  | load (i : Nat)
  | store (i : Nat)
  | flag (i : Nat)
  | pixel (i : Nat)
  deriving DecidableEq, Repr

def Access.address : Access → Nat
  | fetch i | load i | store i | flag i | pixel i => i

/-- What `VM::exec` works on. -/
structure Machine extends VM where
  proc : Process
  cin : Stdin
  cout : List MemCell
  events : List WindowEvent
  window : Window
  /-- The window was closed, and what `window` points to is freed. -/
  destroyed : Bool
  hostDisplayBuffer : List UInt32
  row : Nat
  touched : List Access

/-! ### How an instruction can fail to complete -/

/-- The exceptions `exec` raises. -/
inductive Error where
  | unknownType (type : ArgType)
  | stackOverflow
  | stackUnderflow
  | divideByZero
  | heapOverflow
  | freeingFree
  | nonLabelCall
  | labelPixelIndex
  | notInGuiMode
  | framebufferOverflow
  | unknownOpcode (line : Nat) (opcode : Opcode)
  deriving DecidableEq, Repr

/-- The message of an exception. -/
def Error.what : Error → String
  | unknownType type => "Unknown type for argument (type " ++ toString type.toByte.toNat ++ ")"
  | stackOverflow => "Stack overflow!"
  | stackUnderflow => "Stack underflow!"
  | divideByZero => "Cannot divide by zero"
  | heapOverflow => "Heap overflow!"
  | freeingFree => "Tried freeing a free heap region"
  | nonLabelCall => "Cannot call a non-label function"
  | labelPixelIndex => "There cannot be a numerical value in a label."
  | notInGuiMode => "Cannot edit framebuffer if not in GUI mode"
  | framebufferOverflow => "Framebuffer overflow"
  | unknownOpcode line opcode =>
    " at " ++ toString line ++ ": error: unknown instruction opcode '" ++ toString opcode.toNat ++ "'"

/-- Why an instruction did not complete: it threw, it left the defined behaviour
of C++, or one of its loops never ends. -/
inductive Stop where
  | throws (e : Error)
  | undefined
  | endless
  deriving DecidableEq, Repr

end CustomIsaVm
