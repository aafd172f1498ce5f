import CustomIsaVm.Machine.Frame

/-! The instruction stream.

`readArgument` and `readInstruction` take operands and instructions off the front
of a list of bytes, with the arity and the operand sizes that `exec` and
`fetch_argument` have built in. `step_reads` says that this is what the machine
does: where RAM holds the bytes from PC on, a turn of the loop moves PC past the
instruction read from them and performs it. Every reader of the code bytes goes
through `readInstruction`. -/
namespace CustomIsaVm

/-! ### Bytes in RAM -/

/-- From cell `i` on, RAM holds `bytes`. -/
def Holds (ram : Nat → MemCell) : Nat → List MemCell → Prop
  | _, [] => True
  | i, b :: bytes => ram i = b ∧ Holds ram (i + 1) bytes

@[simp] theorem holds_nil {ram : Nat → MemCell} {i : Nat} : Holds ram i [] := trivial

@[simp] theorem holds_cons {ram : Nat → MemCell} {i : Nat} {b : MemCell} {bytes : List MemCell} :
    Holds ram i (b :: bytes) ↔ ram i = b ∧ Holds ram (i + 1) bytes := Iff.rfl

theorem holds_append {ram : Nat → MemCell} {i : Nat} {a b : List MemCell} :
    Holds ram i (a ++ b) ↔ Holds ram i a ∧ Holds ram (i + a.length) b := by
  induction a generalizing i with
  | nil => simp
  | cons c a ih =>
    simp only [List.cons_append, holds_cons, ih, and_assoc, List.length_cons]
    rw [show i + 1 + a.length = i + (a.length + 1) by omega]

theorem holds_iff {ram : Nat → MemCell} {i : Nat} {bytes : List MemCell} :
    Holds ram i bytes ↔ ∀ k (h : k < bytes.length), ram (i + k) = bytes[k] := by
  induction bytes generalizing i with
  | nil => simp
  | cons b bytes ih =>
    rw [holds_cons, ih]
    constructor
    · rintro ⟨hb, h⟩ k hk
      cases k with
      | zero => exact hb
      | succ k =>
        rw [show i + (k + 1) = i + 1 + k by omega]
        exact h k (by simpa using hk)
    · intro h
      refine ⟨h 0 (by simp), fun k hk => ?_⟩
      rw [show i + 1 + k = i + (k + 1) by omega]
      exact h (k + 1) (by simpa using hk)

theorem Holds.congr {ram ram' : Nat → MemCell} {i : Nat} {bytes : List MemCell}
    (h : Holds ram i bytes) (heq : ∀ j, i ≤ j → j < i + bytes.length → ram' j = ram j) :
    Holds ram' i bytes := by
  rw [holds_iff] at h ⊢
  intro k hk
  rw [heq (i + k) (by omega) (by omega), h k hk]

/-- The `n` cells from `i` on. -/
def window (ram : Nat → MemCell) (i n : Nat) : List MemCell := (List.range' i n).map ram

@[simp] theorem length_window (ram : Nat → MemCell) (i n : Nat) : (window ram i n).length = n := by
  simp [window]

theorem holds_window (ram : Nat → MemCell) (i n : Nat) : Holds ram i (window ram i n) := by
  rw [holds_iff]
  intro k hk
  simp [window]

/-! ### Reading bytes -/

/-- `fetch_argument`, on bytes. -/
def readArgument : List MemCell → Option (RawArgument × List MemCell)
  | [] => none
  | t :: bytes =>
    let type := ArgType.ofByte t
    match type.payload, bytes with
    | 2, high :: low :: rest => some (⟨type, word high low⟩, rest)
    | 1, value :: rest => some (⟨type, value.toUInt16⟩, rest)
    | 0, rest => some (⟨type, 0⟩, rest)
    | _, _ => none

def readArguments : Nat → List MemCell → Option (List RawArgument × List MemCell)
  | 0, bytes => some ([], bytes)
  | n + 1, bytes => do
    let (a, bytes) ← readArgument bytes
    let (args, rest) ← readArguments n bytes
    return (a :: args, rest)

/-- How many operands the case of an opcode fetches. -/
def arity (opcode : Opcode) : Nat :=
  match opcode.toNat with
  | 0x12 | 0x32 | 0x52 | 0x72 | 0x92 | 0xB2 | 0xC2 | 0xD2 => 2
  | 0x01 | 0x21 | 0x31 | 0x41 | 0x51 | 0x61 | 0x71 | 0x81 | 0x91 | 0xA1 | 0xB1 => 1
  | _ => 0

/-- An opcode and its operands. -/
abbrev Decoded := Opcode × List RawArgument

def readInstruction : List MemCell → Option (Decoded × List MemCell)
  | [] => none
  | opcode :: bytes => (readArguments (arity opcode) bytes).map fun (args, rest) => ((opcode, args), rest)

theorem payload_cases (type : ArgType) : type.payload = 0 ∨ type.payload = 1 ∨ type.payload = 2 := by
  cases type <;> simp [ArgType.payload]

/-- What `readArgument` takes: the kind and its payload. -/
theorem readArgument_cases {bytes rest : List MemCell} {a : RawArgument}
    (h : readArgument bytes = some (a, rest)) : ∃ t, a.type = ArgType.ofByte t ∧
      ((a.type.payload = 0 ∧ a.value = 0 ∧ bytes = t :: rest) ∨
        (∃ v, a.type.payload = 1 ∧ a.value = v.toUInt16 ∧ bytes = t :: v :: rest) ∨
        ∃ high low, a.type.payload = 2 ∧ a.value = word high low ∧ bytes = t :: high :: low :: rest) := by
  unfold readArgument at h
  split at h
  · cases h
  · rename_i t tail
    refine ⟨t, ?_⟩
    dsimp only at h
    split at h
    next hp => cases h; exact ⟨rfl, .inr (.inr ⟨_, _, hp, rfl, rfl⟩)⟩
    next hp => cases h; exact ⟨rfl, .inr (.inl ⟨_, hp, rfl, rfl⟩)⟩
    next hp => cases h; exact ⟨rfl, .inl ⟨hp, rfl, rfl⟩⟩
    next => cases h

theorem readArgument_length {bytes rest : List MemCell} {a : RawArgument}
    (h : readArgument bytes = some (a, rest)) : bytes.length = 1 + a.type.payload + rest.length := by
  obtain ⟨t, _, ⟨hp, _, rfl⟩ | ⟨v, hp, _, rfl⟩ | ⟨high, low, hp, _, rfl⟩⟩ := readArgument_cases h
  · rw [hp, List.length_cons]; omega
  · rw [hp, List.length_cons, List.length_cons]; omega
  · rw [hp, List.length_cons, List.length_cons, List.length_cons]; omega

/-- Three bytes are enough for an operand. -/
theorem readArgument_total {bytes : List MemCell} (h : 3 ≤ bytes.length) :
    ∃ a rest, readArgument bytes = some (a, rest) := by
  obtain ⟨t, high, low, rest, rfl⟩ : ∃ t high low rest, bytes = t :: high :: low :: rest := by
    match bytes, h with
    | t :: high :: low :: rest, _ => exact ⟨t, high, low, rest, rfl⟩
  rcases payload_cases (ArgType.ofByte t) with hp | hp | hp <;>
    simp only [readArgument, hp] <;> exact ⟨_, _, rfl⟩

/-- The bytes an instruction with these operands takes. -/
def encodedSize (args : List RawArgument) : Nat := (args.map fun a => 1 + a.type.payload).sum

@[simp] theorem encodedSize_nil : encodedSize [] = 0 := rfl

@[simp] theorem encodedSize_cons (a : RawArgument) (args : List RawArgument) :
    encodedSize (a :: args) = 1 + a.type.payload + encodedSize args := by
  simp [encodedSize]

theorem readArguments_succ {n : Nat} {bytes rest : List MemCell} {args : List RawArgument}
    (h : readArguments (n + 1) bytes = some (args, rest)) : ∃ a args' mid,
      readArgument bytes = some (a, mid) ∧ readArguments n mid = some (args', rest) ∧ args = a :: args' := by
  simp only [readArguments, Option.bind_eq_bind, Option.bind_eq_some_iff, Option.pure_def,
    Option.some.injEq, Prod.mk.injEq, Prod.exists] at h
  obtain ⟨a, mid, ha, args', rest', hargs, rfl, rfl⟩ := h
  exact ⟨a, args', mid, ha, hargs, rfl⟩

theorem readArguments_length {n : Nat} {bytes rest : List MemCell} {args : List RawArgument}
    (h : readArguments n bytes = some (args, rest)) :
    args.length = n ∧ bytes.length = encodedSize args + rest.length := by
  induction n generalizing bytes args with
  | zero => cases h; simp
  | succ n ih =>
    obtain ⟨a, args', mid, ha, hargs, rfl⟩ := readArguments_succ h
    obtain ⟨hn, hlen⟩ := ih hargs
    have hmid := readArgument_length ha
    simp only [List.length_cons, encodedSize_cons]
    omega

theorem readArguments_total (n : Nat) {bytes : List MemCell} (h : 3 * n ≤ bytes.length) :
    ∃ args rest, readArguments n bytes = some (args, rest) := by
  induction n generalizing bytes with
  | zero => exact ⟨[], bytes, rfl⟩
  | succ n ih =>
    obtain ⟨a, mid, ha⟩ := readArgument_total (show 3 ≤ bytes.length by omega)
    have hlen := readArgument_length ha
    have hp := payload_cases a.type
    obtain ⟨args, rest, hargs⟩ := ih (show 3 * n ≤ mid.length by omega)
    exact ⟨a :: args, rest, by simp [readArguments, ha, hargs]⟩

theorem arity_le (opcode : Opcode) : arity opcode ≤ 2 := by
  unfold arity
  split <;> omega

theorem readInstruction_cons {opcode : Opcode} {bytes rest : List MemCell} {d : Decoded}
    (h : readInstruction (opcode :: bytes) = some (d, rest)) :
    ∃ args, readArguments (arity opcode) bytes = some (args, rest) ∧ d = (opcode, args) := by
  simp only [readInstruction, Option.map_eq_some_iff, Prod.mk.injEq, Prod.exists] at h
  obtain ⟨args, rest', h, rfl, rfl⟩ := h
  exact ⟨args, h, rfl⟩

theorem readInstruction_length {bytes rest : List MemCell} {d : Decoded}
    (h : readInstruction bytes = some (d, rest)) : bytes.length = 1 + encodedSize d.2 + rest.length := by
  cases bytes with
  | nil => cases h
  | cons opcode bytes =>
    obtain ⟨args, hargs, rfl⟩ := readInstruction_cons h
    have hlen := (readArguments_length hargs).2
    simp only [List.length_cons]
    omega

/-- Seven bytes are enough for an instruction. -/
theorem readInstruction_total {bytes : List MemCell} (h : 7 ≤ bytes.length) :
    ∃ d rest, readInstruction bytes = some (d, rest) := by
  cases bytes with
  | nil => simp at h
  | cons opcode bytes =>
    have ha := arity_le opcode
    rw [List.length_cons] at h
    obtain ⟨args, rest, hargs⟩ := readArguments_total (arity opcode)
      (show 3 * arity opcode ≤ bytes.length by omega)
    exact ⟨(opcode, args), rest, by simp [readInstruction, hargs]⟩

/-! ### Instructions -/

/-- An instruction of the machine with the operands it was given; `unknown` is an
opcode that the switch has no case for. -/
inductive Instruction where
  | nop
  | mov (dest src : RawArgument)
  | print (el : RawArgument)
  | printflush
  | add (a b : RawArgument)
  | sub (a b : RawArgument)
  | mul (a b : RawArgument)
  | div (a b : RawArgument)
  | input (arg : RawArgument)
  | jmp (target : RawArgument)
  | cmp (arg1 arg2 : RawArgument)
  | je (arg : RawArgument)
  | jne (arg : RawArgument)
  | jg (arg : RawArgument)
  | jng (arg : RawArgument)
  | spush (arg : RawArgument)
  | spop (arg : RawArgument)
  | halloc (place size : RawArgument)
  | hfree (userstart : RawArgument)
  | call (arg : RawArgument)
  | ret
  | fbset (index color : RawArgument)
  | fbsync
  | halt
  | unknown (opcode : Opcode)
  deriving DecidableEq, Repr

/-- The instruction an opcode and its operands stand for. -/
def Decoded.instruction (d : Decoded) : Instruction :=
  match d.1.toNat, d.2 with
  | 0x00, _ => .nop
  | 0x12, [dest, src] => .mov dest src
  | 0x01, [el] => .print el
  | 0x10, _ => .printflush
  | 0x32, [a, b] => .add a b
  | 0x52, [a, b] => .sub a b
  | 0x72, [a, b] => .mul a b
  | 0x92, [a, b] => .div a b
  | 0x21, [arg] => .input arg
  | 0x31, [target] => .jmp target
  | 0xB2, [arg1, arg2] => .cmp arg1 arg2
  | 0x41, [arg] => .je arg
  | 0x51, [arg] => .jne arg
  | 0x61, [arg] => .jg arg
  | 0x71, [arg] => .jng arg
  | 0x81, [arg] => .spush arg
  | 0x91, [arg] => .spop arg
  | 0xC2, [place, size] => .halloc place size
  | 0xA1, [userstart] => .hfree userstart
  | 0xB1, [arg] => .call arg
  | 0x20, _ => .ret
  | 0xD2, [index, color] => .fbset index color
  | 0x30, _ => .fbsync
  | 0xFF, _ => .halt
  | _, _ => .unknown d.1

namespace Exec
open Effect

def fetchArguments : Nat → Exec (List RawArgument)
  | 0 => pure []
  | n + 1 => do
    let a ← fetchArgument
    let args ← fetchArguments n
    return a :: args

/-- The body of the case of an instruction. -/
def perform : Instruction → Exec Unit
  | .nop => pure ()
  | .mov dest src => mov dest src
  | .print el => print el
  | .printflush => printflush
  | .add a b => add a b
  | .sub a b => sub a b
  | .mul a b => mul a b
  | .div a b => div a b
  | .input arg => input arg
  | .jmp target => jmp target
  | .cmp arg1 arg2 => cmp arg1 arg2
  | .je arg => je arg
  | .jne arg => jne arg
  | .jg arg => jg arg
  | .jng arg => jng arg
  | .spush arg => spush arg
  | .spop arg => spop arg
  | .halloc place size => halloc place size
  | .hfree userstart => hfree userstart
  | .call arg => call arg
  | .ret => ret
  | .fbset index color => fbset index color
  | .fbsync => fbsync
  | .halt => halt
  | .unknown opcode => do raise (.unknownOpcode (← get).row opcode)

/-- `execute` is to fetch the operands of an opcode and to perform its instruction. -/
def FetchesThenPerforms (opcode : Opcode) (body : Exec Unit) : Prop :=
  body = (fetchArguments (arity opcode) >>= fun args => perform (Decoded.instruction (opcode, args)))

theorem nullary (opcode : Opcode) {i : Instruction} (ha : arity opcode = 0)
    (hi : Decoded.instruction (opcode, []) = i) : FetchesThenPerforms opcode (perform i) := by
  rw [FetchesThenPerforms, ha, fetchArguments, pure_bind, hi]

theorem unary (opcode : Opcode) (i : RawArgument → Instruction) (ha : arity opcode = 1)
    (hi : ∀ a, Decoded.instruction (opcode, [a]) = i a) :
    FetchesThenPerforms opcode (do let a ← fetchArgument; perform (i a)) := by
  simp only [FetchesThenPerforms, ha, fetchArguments, bind_assoc, pure_bind, hi]

theorem binary (opcode : Opcode) (i : RawArgument → RawArgument → Instruction) (ha : arity opcode = 2)
    (hi : ∀ a b, Decoded.instruction (opcode, [a, b]) = i a b) :
    FetchesThenPerforms opcode (do let a ← fetchArgument; let b ← fetchArgument; perform (i a b)) := by
  simp only [FetchesThenPerforms, ha, fetchArguments, bind_assoc, pure_bind, hi]

/-- Every case fetches its operands first and then does its work. -/
theorem execute_eq (opcode : Opcode) : FetchesThenPerforms opcode (execute opcode) := by
  unfold execute
  split
  case h_25 =>
    refine nullary opcode (i := .unknown opcode) ?_ ?_
    · unfold arity
      split <;> first | contradiction | rfl
    · unfold Decoded.instruction
      split <;> first | contradiction | rfl
  all_goals
    rename_i h
    obtain rfl : opcode = UInt8.ofNat _ := (UInt8.ofNat_toNat (x := opcode)).symm.trans (by rw [h])
  · exact nullary 0x00 rfl rfl
  · exact binary 0x12 .mov rfl fun _ _ => rfl
  · exact unary 0x01 .print rfl fun _ => rfl
  · exact nullary 0x10 rfl rfl
  · exact binary 0x32 .add rfl fun _ _ => rfl
  · exact binary 0x52 .sub rfl fun _ _ => rfl
  · exact binary 0x72 .mul rfl fun _ _ => rfl
  · exact binary 0x92 .div rfl fun _ _ => rfl
  · exact unary 0x21 .input rfl fun _ => rfl
  · exact unary 0x31 .jmp rfl fun _ => rfl
  · exact binary 0xB2 .cmp rfl fun _ _ => rfl
  · exact unary 0x41 .je rfl fun _ => rfl
  · exact unary 0x51 .jne rfl fun _ => rfl
  · exact unary 0x61 .jg rfl fun _ => rfl
  · exact unary 0x71 .jng rfl fun _ => rfl
  · exact unary 0x81 .spush rfl fun _ => rfl
  · exact unary 0x91 .spop rfl fun _ => rfl
  · exact binary 0xC2 .halloc rfl fun _ _ => rfl
  · exact unary 0xA1 .hfree rfl fun _ => rfl
  · exact unary 0xB1 .call rfl fun _ => rfl
  · exact nullary 0x20 rfl rfl
  · exact binary 0xD2 .fbset rfl fun _ _ => rfl
  · exact nullary 0x30 rfl rfl
  · exact nullary 0xFF rfl rfl

/-! ### Fetching -/

/-- Past `n` bytes of the instruction stream. -/
def past (m : Machine) (n : Nat) : Machine :=
  {m with
    proc := {m.proc with pc := m.proc.pc + UInt16.ofNat n}
    touched := ((List.range' m.proc.pc.toNat n).map .fetch).reverse ++ m.touched}

@[simp] theorem past_ram (m : Machine) (n : Nat) : (past m n).ram = m.ram := rfl

@[simp] theorem past_pc (m : Machine) (n : Nat) : (past m n).proc.pc = m.proc.pc + UInt16.ofNat n := rfl

theorem past_pc_toNat {m : Machine} {n : Nat} (h : m.proc.pc.toNat + n < 65536) :
    (past m n).proc.pc.toNat = m.proc.pc.toNat + n := by
  rw [past_pc, UInt16.toNat_add, UInt16.toNat_ofNat']
  omega

theorem past_past {m : Machine} {a b : Nat} (h : m.proc.pc.toNat + a < 65536) :
    past (past m a) b = past m (a + b) := by
  have hpc : (m.proc.pc + UInt16.ofNat a).toNat = m.proc.pc.toNat + a := past_pc_toNat h
  simp only [past, hpc, UInt16.ofNat_add, UInt16.add_assoc, ← List.append_assoc, ← List.reverse_append,
    ← List.map_append, List.range'_append_1]

/-- Where RAM holds an operand, `fetch_argument` returns it and moves PC past it. -/
theorem fetchArgument_reads {m : Machine} {bytes rest : List MemCell} {a : RawArgument}
    (hat : Holds m.ram m.proc.pc.toNat bytes) (hfit : m.proc.pc.toNat + bytes.length ≤ ramSize)
    (hread : readArgument bytes = some (a, rest)) :
    fetchArgument m = .ok a (past m (1 + a.type.payload)) := by
  have hram : ramSize = 64000 := rfl
  obtain ⟨t, ht, hcases⟩ := readArgument_cases hread
  obtain ⟨type, value⟩ := a
  dsimp only at ht hcases
  subst ht
  have hone : m.proc.pc.toNat + 1 < ramSize → (m.proc.pc + 1).toNat = m.proc.pc.toNat + 1 := by
    rw [UInt16.toNat_add, show (1 : UInt16).toNat = 1 from rfl]
    omega
  obtain ⟨hp, rfl, rfl⟩ | ⟨v, hp, rfl, rfl⟩ | ⟨high, low, hp, rfl, rfl⟩ := hcases
  · obtain ⟨hb, _⟩ := hat
    simp only [List.length_cons] at hfit
    simp [fetchArgument, bind_run, get_run, pure_run, modify_run, advance, hb, hp, past,
      load_ok (show m.proc.pc.toNat < ramSize by omega)]
  · obtain ⟨hb, hv, _⟩ := hat
    simp only [List.length_cons] at hfit
    have hpc := hone (by omega)
    simp [-bind_pure_comp, fetchArgument, bind_run, get_run, pure_run, modify_run, advance, hb, hp, hv,
      past, hpc,
      load_ok (show m.proc.pc.toNat < ramSize by omega),
      load_ok (show m.proc.pc.toNat + 1 < ramSize by omega), List.range'_succ, UInt16.add_assoc]
  · obtain ⟨hb, hh, hl, _⟩ := hat
    simp only [List.length_cons] at hfit
    have hpc := hone (by omega)
    simp [-bind_pure_comp, fetchArgument, bind_run, get_run, pure_run, modify_run, advance, hb, hp, hh,
      hl, past, hpc,
      load_ok (show m.proc.pc.toNat < ramSize by omega),
      load_ok (show m.proc.pc.toNat + 1 < ramSize by omega),
      load_ok (show m.proc.pc.toNat + 1 + 1 < ramSize by omega), List.range'_succ, UInt16.add_assoc]

theorem fetchArguments_reads {n : Nat} {m : Machine} {bytes rest : List MemCell}
    {args : List RawArgument} (hat : Holds m.ram m.proc.pc.toNat bytes)
    (hfit : m.proc.pc.toNat + bytes.length ≤ ramSize)
    (hread : readArguments n bytes = some (args, rest)) :
    fetchArguments n m = .ok args (past m (encodedSize args)) := by
  have hram : ramSize = 64000 := rfl
  induction n generalizing m bytes args with
  | zero =>
    cases hread
    simp [fetchArguments, pure_run, past]
  | succ n ih =>
    obtain ⟨a, args', mid, ha, hargs, rfl⟩ := readArguments_succ hread
    have hlen := readArgument_length ha
    have hpc : (past m (1 + a.type.payload)).proc.pc.toNat = m.proc.pc.toNat + (1 + a.type.payload) :=
      past_pc_toNat (by omega)
    have hmid : Holds m.ram (m.proc.pc.toNat + (1 + a.type.payload)) mid := by
      obtain ⟨t, _, ⟨hp, _, rfl⟩ | ⟨v, hp, _, rfl⟩ | ⟨high, low, hp, _, rfl⟩⟩ := readArgument_cases ha
      · rw [hp]; exact hat.2
      · rw [hp]; exact hat.2.2
      · rw [hp]; exact hat.2.2.2
    have hfetch := ih (m := past m (1 + a.type.payload)) (by rw [hpc]; exact hmid)
      (by rw [hpc]; omega) hargs
    rw [past_past (by omega)] at hfetch
    rw [fetchArguments, bind_ok (fetchArgument_reads hat hfit ha), bind_ok hfetch, encodedSize_cons]
    rfl

/-- The opcode and the operands at PC, as the instruction they stand for. -/
def fetchInstruction : Exec Instruction := do
  let opcode ← load .fetch (← get).proc.pc.toNat
  advance 1
  let args ← fetchArguments (arity opcode)
  return Decoded.instruction (opcode, args)

/-- What is left of a turn of the loop once the instruction is known. -/
def complete (i : Instruction) : Exec Unit := do
  perform i
  modify fun m => {m with row := m.row + 1}

/-- A turn of the loop fetches an instruction and completes it. -/
theorem step_eq : step = fetchInstruction >>= complete := by
  unfold step fetchInstruction
  simp only [bind_assoc, pure_bind, show ∀ opcode, execute opcode = _ from execute_eq, complete]

/-- Where RAM holds an instruction, it is fetched and PC moves past it. -/
theorem fetchInstruction_reads {m : Machine} {bytes rest : List MemCell} {d : Decoded}
    (hat : Holds m.ram m.proc.pc.toNat bytes) (hfit : m.proc.pc.toNat + bytes.length ≤ ramSize)
    (hread : readInstruction bytes = some (d, rest)) :
    fetchInstruction m = .ok d.instruction (past m (1 + encodedSize d.2)) := by
  have hram : ramSize = 64000 := rfl
  cases bytes with
  | nil => cases hread
  | cons opcode bytes =>
    obtain ⟨args, hargs, rfl⟩ := readInstruction_cons hread
    obtain ⟨hop, hrest⟩ := hat
    rw [List.length_cons] at hfit
    have hadvance : advance 1 {m with touched := .fetch m.proc.pc.toNat :: m.touched} =
        .ok () (past m 1) := rfl
    have hpc : (past m 1).proc.pc.toNat = m.proc.pc.toNat + 1 := past_pc_toNat (by omega)
    have hfetch := fetchArguments_reads (m := past m 1) (by rw [hpc]; exact hrest)
      (by rw [hpc]; omega) hargs
    rw [past_past (by omega)] at hfetch
    have hload : load .fetch m.proc.pc.toNat m =
        .ok opcode {m with touched := .fetch m.proc.pc.toNat :: m.touched} := by
      rw [load_ok (by omega), hop]
    unfold fetchInstruction
    rw [bind_ok (get_run m), bind_ok hload, bind_ok hadvance, bind_ok hfetch]
    rfl

/-- Where RAM holds an instruction, a turn of the loop moves PC past it and performs it. -/
theorem step_reads {m : Machine} {bytes rest : List MemCell} {d : Decoded}
    (hat : Holds m.ram m.proc.pc.toNat bytes) (hfit : m.proc.pc.toNat + bytes.length ≤ ramSize)
    (hread : readInstruction bytes = some (d, rest)) :
    step m = complete d.instruction (past m (1 + encodedSize d.2)) := by
  rw [step_eq, bind_ok (fetchInstruction_reads hat hfit hread)]

/-- The instruction at PC. -/
def current (m : Machine) : Instruction :=
  match readInstruction (window m.ram m.proc.pc.toNat 7) with
  | some (d, _) => d.instruction
  | none => .nop

/-- How many bytes the instruction at PC takes. -/
def currentSize (m : Machine) : Nat :=
  match readInstruction (window m.ram m.proc.pc.toNat 7) with
  | some (d, _) => 1 + encodedSize d.2
  | none => 0

theorem currentSize_le (m : Machine) : currentSize m ≤ 7 := by
  unfold currentSize
  split
  next d rest h =>
    have := readInstruction_length h
    rw [length_window] at this
    omega
  next => omega

/-- The instruction at PC is what is fetched, wherever PC stands well inside RAM. -/
theorem fetchInstruction_current {m : Machine} (hfit : m.proc.pc.toNat + 7 ≤ ramSize) :
    fetchInstruction m = .ok (current m) (past m (currentSize m)) := by
  obtain ⟨d, rest, h⟩ := readInstruction_total (length_window m.ram m.proc.pc.toNat 7).ge
  rw [fetchInstruction_reads (holds_window m.ram _ 7) (by simpa using hfit) h]
  simp only [current, currentSize, h]

/-- A turn of the loop, wherever PC stands well inside RAM. -/
theorem step_current {m : Machine} (hfit : m.proc.pc.toNat + 7 ≤ ramSize) :
    step m = complete (current m) (past m (currentSize m)) := by
  rw [step_eq, bind_ok (fetchInstruction_current hfit)]

end Exec
end CustomIsaVm
