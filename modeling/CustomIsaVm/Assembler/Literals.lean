import CustomIsaVm.Assembler.RoundTrip
import CustomIsaVm.Machine.HeapLoops

/-! Which literals can be executed.

The assembler picks the kind of a literal by its size alone, and each case of the
switch takes its own kinds. `Accepts` is what the cases have in common: an operand
names a cell, or is a one-byte literal in a place where the case reads a value, or
is the pixel index. An instruction whose operands it accepts never meets a kind it
does not know (`knows_perform`); the assembler's table has literals of one byte
right, and those of two only as a pixel index (`literals_usable`). -/
namespace CustomIsaVm

open Effect

/-- The opcode and the operands at PC. -/
def Exec.decoded (m : Machine) : Option Decoded :=
  (readInstruction (window m.ram m.proc.pc.toNat 7)).map Prod.fst

theorem Exec.current_of_decoded {m : Machine} {d : Decoded} (h : decoded m = some d) :
    current m = d.instruction := by
  obtain ⟨⟨d', rest⟩, hread, rfl⟩ := Option.map_eq_some_iff.mp h
  rw [current, hread]

/-! ### The kinds the instructions know -/

/-- The positions in which a case of the switch takes a one-byte literal as a value. -/
def takesLiteral (opcode : Opcode) (position : Nat) : Bool :=
  match opcode.toNat, position with
  | 0x12, 1 | 0x32, 1 | 0x52, 1 | 0x72, 1 | 0x92, 1 | 0xC2, 1 | 0xD2, 1 => true
  | 0xB2, 0 | 0xB2, 1 | 0x01, 0 | 0x81, 0 => true
  | _, _ => false

/-- The operand of `FBSET` that denotes a pixel. -/
def isPixelIndex (opcode : Opcode) (position : Nat) : Bool := opcode.toNat == 0xD2 && position == 0

/-- A kind of operand that the case of an opcode can do with. -/
def Accepts (opcode : Opcode) (position : Nat) (type : ArgType) : Prop :=
  type.hasCell = true ∨ (type = .number ∧ takesLiteral opcode position = true) ∨
    isPixelIndex opcode position = true

/-- An operand that has a value: a one-byte literal, or one that names a cell. -/
def RawArgument.HasValue (a : RawArgument) : Prop := a.type = .number ∨ a.type.hasCell = true

/-- The operands of the instruction are of kinds that its case can do with. -/
def Instruction.Usable : Instruction → Prop
  | .mov dest src | .add dest src | .sub dest src | .mul dest src | .div dest src | .halloc dest src =>
    dest.type.hasCell = true ∧ src.HasValue
  | .cmp arg1 arg2 => arg1.HasValue ∧ arg2.HasValue
  | .print arg | .spush arg | .fbset _ arg => arg.HasValue
  | .input arg | .jmp arg | .je arg | .jne arg | .jg arg | .jng arg | .spop arg | .hfree arg =>
    arg.type.hasCell = true
  | .nop | .printflush | .call _ | .ret | .fbsync | .halt | .unknown _ => True

namespace Exec
variable {α β : Type}

/-- A part that does not meet an operand of unknown kind. -/
def Knows (x : Exec α) : Prop :=
  ∀ m, Ensures x (fun _ _ => True) (fun s _ => ∀ type, s ≠ .throws (.unknownType type)) m

theorem Silent.knows {x : Exec α} (h : Silent x) : Knows x := fun m =>
  (h m).mono (fun _ _ _ => trivial) fun s _ hs => by subst hs; exact nofun

theorem Knows.bind {x : Exec α} {f : α → Exec β} (hx : Knows x) (hf : ∀ a, Knows (f a)) : Knows (x >>= f) := by
  intro m
  rw [ensures_bind]
  exact (hx m).mono (fun a t _ => hf a t) fun _ _ h => h

theorem Knows.pure (a : α) : Knows (Pure.pure a : Exec α) := fun _ => trivial

theorem Knows.get : Knows (MonadState.get : Exec Machine) := fun _ => trivial

theorem Knows.update (f : Machine → Machine) : Knows (modify f) := fun _ => trivial

theorem Knows.ite {c : Prop} [Decidable c] {x y : Exec α} (hx : Knows x) (hy : Knows y) :
    Knows (if c then x else y) := by
  split
  · exact hx
  · exact hy

theorem Knows.raise {e : Error} (h : ∀ type, e ≠ .unknownType type) : Knows (raise e : Exec α) :=
  fun _ type hs => h type (Stop.throws.inj hs)

theorem Knows.raiseIf (c : Prop) [Decidable c] {e : Error} (h : ∀ type, e ≠ .unknownType type) :
    Knows (raiseIf c e) := .ite (.raise h) (.pure _)

/-! ### Values and cells -/

theorem silent_operandValue {arg : RawArgument} (h : arg.type = .number ∨ arg.type.hasCell = true) :
    Silent (operandValue arg) := by
  unfold operandValue
  split
  · exact .pure _
  · exact silent_cellValue (h.resolve_left ‹_›)

theorem silent_updateCell {op : MemCell → MemCell → MemCell} {a : RawArgument} (h : a.type.hasCell = true)
    (b : MemCell) : Silent (updateCell op a b) := by
  refine .bind (silent_resolveWriteableArg h _) fun c => .bind ?_ fun _ => silent_write _ c
  cases c with
  | register r => exact .bind .get fun _ => .pure _
  | ram i => exact silent_load _ i

theorem knows_inputValue : Knows inputValue := by
  refine .bind (.bind (silent_load _ _).knows fun _ => .pure _) fun _ =>
    .ite (.bind .get fun m => ?_) (fun _ => trivial)
  cases m.window with
  | uninitialised => exact fun _ => nofun
  | null => exact fun _ => trivial
  | opened => exact fun _ => trivial

theorem knows_lowered {n : Nat} {k : Process → Exec Unit} (hk : ∀ p, Silent (k p)) : Knows (do
    lowerSP n
    let proc := (← get).proc
    raiseIf (proc.sp < proc.stackLimit) .stackOverflow
    k proc) :=
  .bind (.update _) fun _ => .bind .get fun _ => .bind (.raiseIf _ nofun) fun _ => (hk _).knows

theorem silent_header (start : MemAddr) : Silent (header start) :=
  .bind (silent_load _ _) fun _ => .bind (silent_load _ _) fun _ => .bind (silent_load _ _) fun _ => .pure _

theorem knows_hallocScan (size fuel : Nat) (cursor : MemAddr) : Knows (hallocScan size fuel cursor) := by
  induction fuel generalizing cursor with
  | zero => exact fun _ => nofun
  | succ fuel ih =>
    exact .bind .get fun _ => .bind (.raiseIf _ nofun) fun _ => .bind (silent_header _).knows fun _ =>
      .ite (ih _) (.ite (.pure _) (ih _))

theorem knows_coalesce (fuel : Nat) (cursor : MemAddr) : Knows (coalesce fuel cursor) := by
  induction fuel generalizing cursor with
  | zero => exact fun _ => nofun
  | succ fuel ih =>
    refine .bind .get fun _ => .ite (.bind (silent_header _).knows fun _ => .ite ?_ (.pure _)) (.pure _)
    refine .bind (silent_header _).knows fun _ => .ite ?_ (ih _)
    exact .bind (silent_store _ _ _).knows fun _ => .bind (silent_store _ _ _).knows fun _ => ih _

theorem knows_pixelIndex (index : RawArgument) : Knows (pixelIndex index) := by
  have hword : ∀ i : Nat, Knows (do return word (← load .load i) (← load .load (i + 1))) := fun i =>
    .bind (silent_load _ _).knows fun _ => .bind (silent_load _ _).knows fun _ => .pure _
  unfold pixelIndex
  cases index.type with
  | number => exact .pure _
  | number16 => exact .pure _
  | register =>
    exact .bind (silent_cellValue rfl).knows fun _ => .bind (silent_cellValue rfl).knows fun _ => .pure _
  | indirectReg =>
    exact .bind .get fun _ => .bind (silent_registerIndex _).knows fun _ => .bind .get fun _ => hword _
  | indirectMem => exact .bind .get fun _ => hword _
  | address => exact .bind .get fun _ => hword _
  | indirectLbl => exact .pure _
  | other b => exact .pure _

/-! ### Instructions -/

theorem knows_jumpIf {condition : Bool → Bool → Bool} {arg : RawArgument} (h : arg.type.hasCell = true) :
    Knows (jumpIf condition arg) :=
  .bind .get fun _ => .ite (.bind (silent_wordValue (.inr h)).knows fun _ => .update _) (.pure _)

theorem knows_spush {arg : RawArgument} (h : arg.type = .number ∨ arg.type.hasCell = true) :
    Knows (spush arg) :=
  .bind (silent_wordValue h).knows fun v => knows_lowered (k := fun proc =>
      if stackWidth arg.type = 1 then store .store proc.sp.toNat (lowByte v.toNat)
      else do
        store .store proc.sp.toNat (highByte v.toNat)
        store .store (proc.sp.toNat + 1) (lowByte v.toNat))
    fun _ => .ite (silent_store _ _ _) (.bind (silent_store _ _ _) fun _ => silent_store _ _ _)

theorem knows_spop {arg : RawArgument} (h : arg.type.hasCell = true) : Knows (spop arg) := by
  have hdeliver : ∀ v : MemCell, Knows (do
      (← resolveWriteableArg arg.type arg.value).write v
      raiseSP (stackWidth arg.type)) := fun v =>
    .bind (silent_resolveWriteableArg h _).knows fun c => ((silent_write v c).bind fun _ => .update _).knows
  refine .bind .get fun _ => .bind (.raiseIf _ nofun) fun _ => .ite (.bind (silent_load _ _).knows hdeliver) ?_
  exact .bind (silent_load _ _).knows fun _ => .bind (silent_load _ _).knows fun _ => hdeliver _

theorem knows_call (arg : RawArgument) : Knows (call arg) := by
  refine .bind (.raiseIf _ nofun) fun _ => .bind .get fun m => ?_
  have hpushed : ∀ proc : Process, Silent (do
      store .store proc.sp.toNat (highByte m.proc.pc.toNat)
      store .store (proc.sp.toNat + 1) (lowByte m.proc.pc.toNat)
      modify fun m => {m with proc := {m.proc with pc := arg.value}}) := fun _ =>
    .bind (silent_store _ _ _) fun _ => .bind (silent_store _ _ _) fun _ => .update _
  exact knows_lowered hpushed

theorem knows_ret : Knows ret :=
  .bind .get fun _ => .bind (.raiseIf _ nofun) fun _ => .bind (silent_load _ _).knows fun _ =>
    .bind (silent_load _ _).knows fun _ => .bind (.update _) fun _ => .update _

theorem knows_halloc {place size : RawArgument} (hplace : place.type.hasCell = true)
    (hsize : size.type = .number ∨ size.type.hasCell = true) : Knows (halloc place size) :=
  .bind (silent_wordValue hsize).knows fun _ => .bind .get fun _ => .bind (knows_hallocScan _ _ _) fun _ =>
    .bind (silent_carve _ _ _).knows fun _ => (silent_assign hplace _).knows

theorem knows_hfree {arg : RawArgument} (h : arg.type.hasCell = true) : Knows (hfree arg) :=
  .bind (silent_wordValue (.inr h)).knows fun _ => .bind (silent_load _ _).knows fun _ =>
    .bind (.raiseIf _ nofun) fun _ => .bind (silent_store _ _ _).knows fun _ => .bind .get fun _ =>
      knows_coalesce _ _

theorem knows_fbset (index : RawArgument) {color : RawArgument}
    (h : color.type = .number ∨ color.type.hasCell = true) : Knows (fbset index color) :=
  .bind (.raiseIf _ nofun) fun _ => .bind (.bind (silent_load _ _).knows fun _ => .pure _) fun _ =>
    .bind (.raiseIf _ nofun) fun _ => .bind (knows_pixelIndex _) fun _ =>
      .bind (silent_operandValue h).knows fun _ => .bind (.raiseIf _ nofun) fun _ => (silent_store _ _ _).knows

theorem knows_fbsync : Knows fbsync := by
  have hconvert : ∀ i n, Knows (convert i n) := by
    intro i n
    induction n generalizing i with
    | zero => exact .pure _
    | succ n ih =>
      refine .bind (silent_load _ _).knows fun c => .bind ?_ fun _ => .bind (ih _) fun _ => .pure _
      unfold colorOf
      split
      · exact .pure _
      · exact fun _ => nofun
  have hwindow : Knows updateWindow := fun m =>
    ensures_updateWindow nofun (fun _ => trivial) fun _ _ _ => trivial
  exact .bind (hconvert _ _) fun _ => .bind (.update _) fun _ => .bind hwindow fun _ =>
    .ite (.update _) (.pure _)

/-- **An instruction whose operands are of kinds it can do with meets no unknown kind.** -/
theorem knows_perform {i : Instruction} (h : i.Usable) : Knows (perform i) := by
  cases i with
  | nop => exact .pure _
  | mov dest src => exact .bind (silent_operandValue h.2).knows fun _ => (silent_assign h.1 _).knows
  | print el => exact .bind (silent_operandValue h).knows fun _ => .update _
  | printflush => exact .update _
  | add a b => exact .bind (silent_operandValue h.2).knows fun _ => (silent_updateCell h.1 _).knows
  | sub a b => exact .bind (silent_operandValue h.2).knows fun _ => (silent_updateCell h.1 _).knows
  | mul a b => exact .bind (silent_operandValue h.2).knows fun _ => (silent_updateCell h.1 _).knows
  | div a b =>
    exact .bind (silent_operandValue h.2).knows fun _ => .bind (.raiseIf _ nofun) fun _ =>
      (silent_updateCell h.1 _).knows
  | input arg => exact .bind knows_inputValue fun _ => (silent_assign h _).knows
  | jmp target => exact .bind (silent_wordValue (.inr h)).knows fun _ => .update _
  | cmp arg1 arg2 =>
    exact .bind (silent_operandValue h.1).knows fun _ => .bind (silent_operandValue h.2).knows fun _ =>
      .update _
  | je arg =>
    show Knows (jumpIf (fun zero _ => zero) arg)
    exact knows_jumpIf h
  | jne arg =>
    show Knows (jumpIf (fun zero _ => !zero) arg)
    exact knows_jumpIf h
  | jg arg =>
    show Knows (jumpIf (fun _ sign => sign) arg)
    exact knows_jumpIf h
  | jng arg =>
    show Knows (jumpIf (fun _ sign => !sign) arg)
    exact knows_jumpIf h
  | spush arg => exact knows_spush h
  | spop arg => exact knows_spop h
  | halloc place size => exact knows_halloc h.1 h.2
  | hfree userstart => exact knows_hfree h
  | call arg => exact knows_call arg
  | ret => exact knows_ret
  | fbset index color => exact knows_fbset index h
  | fbsync => exact knows_fbsync
  | halt => exact .update _
  | unknown opcode => exact .bind .get fun _ => .raise nofun

end Exec

/-- Accepted operands make an instruction that can do with them. -/
theorem usable_of_accepts {d : Decoded} (h : ∀ k a, d.2[k]? = some a → Accepts d.1 k a.type) :
    d.instruction.Usable := by
  obtain ⟨opcode, operands⟩ := d
  unfold Decoded.instruction
  split <;> rename_i hop hargs <;> first | trivial | (dsimp only at hop hargs; subst hargs)
  all_goals
    have hfirst := h 0 _ rfl
    simp only [Accepts, takesLiteral, isPixelIndex, hop] at hfirst
    first
    | have hsecond := h 1 _ rfl
      simp only [Accepts, takesLiteral, isPixelIndex, hop] at hsecond
      clear h
      simp_all [Instruction.Usable, RawArgument.HasValue, or_comm]
    | clear h
      simp_all [Instruction.Usable, RawArgument.HasValue, or_comm]

/-! ### Literals in a source -/

namespace Assembler
open Text

/-- The operands that the VM reads as a value, by mnemonic and position. -/
def valuePositions : List (Str × Nat) :=
  [("MOV".toList, 1), ("ADD".toList, 1), ("SUB".toList, 1), ("MUL".toList, 1), ("DIV".toList, 1),
    ("HALLOC".toList, 1), ("FBSET".toList, 1), ("FBSET".toList, 0), ("CMP".toList, 0), ("CMP".toList, 1),
    ("PRINT".toList, 0), ("SPUSH".toList, 0)]

/-- A word that the assembler takes for a number. -/
def IsLiteral (arg : Str) : Prop := operandType arg = .number ∨ operandType arg = .number16

/-- Literals stand only where the VM reads a value. -/
def LiteralsPlaced (lines : List Str) : Prop :=
  ∀ line ∈ lines, ∀ mnemonic args, instructionOf line = mnemonic :: args → mnemonic ≠ skipDirective →
    ∀ k arg, args[k]? = some arg → IsLiteral arg → (mnemonic, k) ∈ valuePositions

/-- The instruction at PC is one of those that the image is made of. -/
def Emitted (bytes : List Opcode) (m : Machine) : Prop :=
  ∃ ds d, Decodes (bytes.drop 2) ds ∧ d ∈ ds ∧ Exec.decoded m = some d

/-- The instruction at PC has no literal of two bytes but as a pixel index. -/
def NarrowLiterals (m : Machine) : Prop :=
  ∀ d, Exec.decoded m = some d → ∀ k a, d.2[k]? = some a → a.type = .number16 → isPixelIndex d.1 k = true

/-- Where the VM reads a value, the case takes a literal, or the operand is a pixel index. -/
theorem takesLiteral_of_valuePosition {mnemonic : Str} {n k : Nat} {opcode : Opcode}
    (hop : findOpcode mnemonic n = some opcode) (hk : (mnemonic, k) ∈ valuePositions) :
    takesLiteral opcode k = true ∨ isPixelIndex opcode k = true := by
  have htable : ∀ e ∈ instructionTable, ∀ v ∈ valuePositions, e.1.1 = v.1 →
      takesLiteral e.2 v.2 = true ∨ isPixelIndex e.2 v.2 = true := by decide +kernel
  exact htable _ (mem_instructionTable hop) _ hk rfl

theorem hasCell_of_not_literal {arg : Str} (h : ¬ IsLiteral arg) : (operandType arg).hasCell = true := by
  cases htype : operandType arg with
  | number => exact absurd (.inl htype) h
  | number16 => exact absurd (.inr htype) h
  | other b => exact absurd htype (operandType_ne_other arg b)
  | register => rfl
  | address => rfl
  | indirectReg => rfl
  | indirectMem => rfl
  | indirectLbl => rfl

/-- An instruction of a source with its literals in place is accepted, but for two-byte
literals that are not a pixel index. -/
theorem accepts_of_means {labels : Labels} {line : Str} {lines : List Str} {ds : List Decoded} {d : Decoded}
    (hplaced : LiteralsPlaced lines) (hline : line ∈ lines) (hmeans : LineMeans labels line ds) (hd : d ∈ ds)
    (hnarrow : ∀ k a, d.2[k]? = some a → a.type = .number16 → isPixelIndex d.1 k = true) (k : Nat)
    (a : RawArgument) (ha : d.2[k]? = some a) : Accepts d.1 k a.type := by
  cases hmeans with
  | skipped => cases hd
  | skip =>
    rw [List.eq_of_mem_replicate hd] at ha
    cases ha
  | @instruction mnemonic args opcode operands hwords hskip hop hoperands =>
    rw [List.mem_singleton] at hd
    subst hd
    obtain ⟨hk, _⟩ := List.getElem?_eq_some_iff.mp ha
    have hk' : k < args.length := by
      rw [hoperands.length_eq]
      exact hk
    have harg : args[k]? = some args[k] := List.getElem?_eq_getElem hk'
    have hmean : OperandMeans labels args[k] a := by
      obtain ⟨_, rfl⟩ := List.getElem?_eq_some_iff.mp ha
      exact hoperands.get hk' hk
    rw [hmean.type]
    by_cases hlit : IsLiteral args[k]
    · have hposition := hplaced line hline mnemonic args hwords hskip k _ harg hlit
      rcases takesLiteral_of_valuePosition hop hposition with htakes | hpixel
      · rcases hlit with htype | htype
        · exact .inr (.inl ⟨htype, htakes⟩)
        · exact .inr (.inr (hnarrow k a ha (hmean.type.trans htype)))
      · exact .inr (.inr hpixel)
    · exact .inl (hasCell_of_not_literal hlit)

/-- What the image is made of is what the lines stand for. -/
theorem line_of_emitted {code : Str} {bytes : List Opcode} (hasm : asmToOpcodes code = .ok bytes)
    {m : Machine} (h : Emitted bytes m) : ∃ labels line ds d, line ∈ getlines code ∧
      LineMeans labels line ds ∧ d ∈ ds ∧ Exec.decoded m = some d := by
  obtain ⟨first, second, hfirst, hsecond, rfl⟩ := asmToOpcodes_eq_ok hasm
  obtain ⟨part, dss, hcodes, hmeans, hdecodes⟩ := secondPass_decodes hsecond
  obtain ⟨ds, d, hds, hd, hdecoded⟩ := h
  rw [hcodes] at hds
  rw [hds.unique hdecodes] at hd
  obtain ⟨ds', hds', hd⟩ := List.mem_flatten.mp hd
  obtain ⟨i, hi, rfl⟩ := List.getElem_of_mem hds'
  have hi' : i < (getlines code).length := by
    rw [hmeans.length_eq]
    exact hi
  exact ⟨_, _, _, d, List.getElem_mem hi', hmeans.get hi' hi, hd, hdecoded⟩

/-- **What the assembler accepts, the VM can execute, but for literals of two bytes.** In every
run that stays on the instructions of the image and comes to no two-byte literal besides a
pixel index, no operand is of unknown kind. -/
theorem literals_usable {code : Str} {bytes : List Opcode} (hasm : asmToOpcodes code = .ok bytes)
    (hplaced : LiteralsPlaced (getlines code)) {vm vm' : VM} {procs : List Process} {p : Process}
    (hs : Session vm procs) (hload : vm.load bytes = .ok (p, vm')) (cin : Stdin) (handle : Window)
    (events : List WindowEvent) {n : Nat} {m : Machine}
    (hstays : Machine.system.Within (fun m => m.goesOn = true → Emitted bytes m ∧ NarrowLiterals m) (n + 1)
      (.boot vm' p cin handle events))
    (hrun : Machine.system.after n (.boot vm' p cin handle events) = some m) (type : ArgType) :
    m.next ≠ .error (.stopped (.throws (.unknownType type))) := by
  intro hnext
  have hl := (Machine.keeps_reaches ⟨n, hrun⟩).layout.loaded (hs.load_loaded hload).1
  obtain ⟨hgo, m', hperform⟩ := Machine.next_error hl hnext
  obtain ⟨hemitted, hnarrow⟩ := hstays n (Nat.lt_succ_self n) m hrun hgo
  obtain ⟨labels, line, ds, d, hline, hmeans, hd, hdecoded⟩ := line_of_emitted hasm hemitted
  have husable : (Exec.current m).Usable := by
    rw [Exec.current_of_decoded hdecoded]
    exact usable_of_accepts fun k a ha =>
      accepts_of_means hplaced hline hmeans hd (hnarrow d hdecoded) k a ha
  exact ((Exec.knows_perform husable) _).error hperform type rfl

/-- In a line `PRINT` with one operand the literal is in place. -/
theorem literalsPlaced_print (code arg : Str) (hlines : getlines code = [code])
    (hwords : instructionOf code = ["PRINT".toList, arg]) : LiteralsPlaced (getlines code) := by
  rw [hlines]
  intro line hline mnemonic args hargs _ k arg' harg _
  rw [List.mem_singleton.mp hline, hwords] at hargs
  cases hargs
  obtain rfl : k = 0 := by
    obtain ⟨hk, _⟩ := List.getElem?_eq_some_iff.mp harg
    exact Nat.lt_one_iff.mp hk
  decide

/-- `PRINT 65`. -/
def printNarrow : Str := "PRINT 65".toList

def printNarrowBytes : List Opcode := [0, 2, 0x01, 0, 65]

def printNarrowMachine : Machine :=
  .headless (freshVM printNarrowBytes) (freshProcess printNarrowBytes) ⟨[], false⟩

theorem printNarrow_decoded : Exec.decoded printNarrowMachine = some (0x01, [⟨.number, 65⟩]) := by decide

theorem literals_usable_narrow :
    printNarrowMachine.next ≠ .error (.stopped (.throws (.unknownType .number))) := by
  have hasm : asmToOpcodes printNarrow = .ok printNarrowBytes := by decide +kernel
  have hplaced := literalsPlaced_print printNarrow "65".toList (by decide +kernel) (by decide +kernel)
  have hload : VM.fresh.load printNarrowBytes = _ := load_fresh (by decide)
  have hstart : Machine.system.after 0 printNarrowMachine = some printNarrowMachine := rfl
  refine literals_usable hasm hplaced .fresh hload ⟨[], false⟩ .null [] ?_ hstart .number
  intro k hk m hm _
  obtain rfl : k = 0 := Nat.lt_one_iff.mp hk
  cases hm
  refine ⟨⟨_, _, .single rfl, List.mem_singleton_self _, printNarrow_decoded⟩, fun d hd k a ha htype => ?_⟩
  cases printNarrow_decoded.symm.trans hd
  obtain ⟨hk, rfl⟩ := List.getElem?_eq_some_iff.mp ha
  obtain rfl : k = 0 := Nat.lt_one_iff.mp hk
  cases htype

/-- `PRINT 300`. -/
def printWide : Str := "PRINT 300".toList

def printWideBytes : List Opcode := [0, 2, 0x01, 6, 1, 44]

def printWideMachine : Machine :=
  .headless (freshVM printWideBytes) (freshProcess printWideBytes) ⟨[], false⟩

/-- The literal is accepted where `PRINT` reads a value, and cannot be executed there. -/
theorem literals_usable_wide : asmToOpcodes printWide = .ok printWideBytes ∧
    LiteralsPlaced (getlines printWide) ∧
    VM.fresh.load printWideBytes = .ok (freshProcess printWideBytes, freshVM printWideBytes) ∧
    Emitted printWideBytes printWideMachine ∧
    printWideMachine.next = .error (.stopped (.throws (.unknownType .number16))) := by
  have hload : VM.fresh.load printWideBytes = _ := load_fresh (by decide)
  have hl : Loaded 6 printWideMachine.proc := (Session.fresh.load_loaded hload).1
  have hdecoded : Exec.decoded printWideMachine = some (0x01, [⟨.number16, 300⟩]) := by decide
  have hplaced := literalsPlaced_print printWide "300".toList (by decide +kernel) (by decide +kernel)
  refine ⟨by decide +kernel, hplaced, hload,
    ⟨_, _, .single rfl, List.mem_singleton_self _, hdecoded⟩, ?_⟩
  have hperform : Exec.perform (Exec.current printWideMachine) (Exec.fetched printWideMachine) =
      .error (.throws (.unknownType .number16)) (Exec.fetched printWideMachine) := by
    rw [Exec.current_of_decoded hdecoded]
    rfl
  exact Machine.next_error_of_perform hl (by decide) hperform

end Assembler
end CustomIsaVm
