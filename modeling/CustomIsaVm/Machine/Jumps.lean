import CustomIsaVm.Machine.Operand
import CustomIsaVm.Machine.Decode

/-! Jumps and their targets.

`JMP` and the four conditional jumps compute their target each in its own case of the
switch. `landing` is where such a case leaves PC, or how it stops. Flags decide whether
a conditional jump is taken and nothing else (`overlooks_wordValue`), so that the five
can be compared in one state (`jumps_agree`). -/
namespace CustomIsaVm

open Effect Exec

/-! ### The conditional jumps -/

inductive ConditionalJump where
  | je
  | jne
  | jg
  | jng
  deriving DecidableEq, Repr

namespace ConditionalJump

def opcode : ConditionalJump → Opcode
  | je => 0x41
  | jne => 0x51
  | jg => 0x61
  | jng => 0x71

def instruction (arg : RawArgument) : ConditionalJump → Instruction
  | je => .je arg
  | jne => .jne arg
  | jg => .jg arg
  | jng => .jng arg

/-- The condition on the flags. -/
def holds : ConditionalJump → Bool → Bool → Bool
  | je => fun zero _ => zero
  | jne => fun zero _ => !zero
  | jg => fun _ sign => sign
  | jng => fun _ sign => !sign

theorem perform_eq (j : ConditionalJump) (arg : RawArgument) :
    perform (j.instruction arg) = jumpIf j.holds arg := by
  cases j <;> rfl

theorem decoded (j : ConditionalJump) (arg : RawArgument) :
    Decoded.instruction (j.opcode, [arg]) = j.instruction arg := by
  cases j <;> rfl

end ConditionalJump

/-- Where the case of an instruction leaves PC, or how it stops. -/
def landing (i : Instruction) (m : Machine) : Except Stop MemAddr :=
  match perform i m with
  | .ok _ m' => .ok m'.proc.pc
  | .error s _ => .error s

/-- The machine with these flags. -/
def flagged (zero sign : Bool) (m : Machine) : Machine := {m with zero := zero, sign := sign}

/-! ### What flags do not change -/

section
variable {zero sign : Bool}

theorem overlooks_load (access : Nat → Access) (i : Nat) :
    Overlooks (flagged zero sign) (load access i) := by
  intro m
  unfold load
  by_cases h : i < ramSize
  · rw [if_pos h, if_pos h]
    rfl
  · rw [if_neg h, if_neg h]
    rfl

theorem overlooks_registerIndex (value : MemAddr) :
    Overlooks (flagged zero sign) (registerIndex value) := by
  unfold registerIndex
  split
  · exact .pure _
  · exact .throw _

theorem overlooks_resolve (type : ArgType) (value : MemAddr) :
    Overlooks (flagged zero sign) (resolveWriteableArg type value) := by
  cases type with
  | register => exact .bind (overlooks_registerIndex _) fun _ => .pure _
  | address => exact .get_bind (fun _ => rfl) fun _ => .pure _
  | indirectMem => exact .get_bind (fun _ => rfl) fun _ => .pure _
  | indirectLbl =>
    refine .get_bind (fun _ => rfl) fun m => ?_
    exact .bind (overlooks_load _ _) fun _ => .bind (overlooks_load _ _) fun _ =>
      .get_bind (fun _ => rfl) fun _ => .pure _
  | indirectReg =>
    refine .bind (overlooks_registerIndex _) fun r => ?_
    exact .get_bind (fun _ => rfl) fun _ => .get_bind (fun _ => rfl) fun _ => .pure _
  | number => exact .throw _
  | number16 => exact .throw _
  | other b => exact .throw _

theorem overlooks_read (c : Cell) : Overlooks (flagged zero sign) c.read := by
  cases c with
  | register r => exact .get_bind (fun _ => rfl) fun _ => .pure _
  | ram i => exact overlooks_load _ _

theorem overlooks_wordValue (p : Prop) [Decidable p] (arg : RawArgument) :
    Overlooks (flagged zero sign) (wordValue p arg) := by
  refine .ite (.pure _) (.bind ?_ fun _ => .pure _)
  exact .bind (overlooks_resolve _ _) overlooks_read

theorem overlooks_jumpTo (offset : MemAddr) : Overlooks (flagged zero sign) (jumpTo offset) :=
  .update fun _ => rfl

end

/-! ### Where jumps land -/

/-- A jump that is taken: a number or a label is the target itself. -/
def taken (arg : RawArgument) : Exec Unit := do
  jumpTo (← wordValue (arg.type = .number ∨ arg.type = .address) arg)

theorem overlooks_taken (zero sign : Bool) (arg : RawArgument) :
    Overlooks (flagged zero sign) (taken arg) :=
  .bind (overlooks_wordValue _ _) overlooks_jumpTo

theorem jumpIf_taken {condition : Bool → Bool → Bool} {m : Machine}
    (h : condition m.zero m.sign = true) (arg : RawArgument) :
    jumpIf condition arg m = taken arg m := by
  rw [jumpIf, bind_ok (get_run m), if_pos h]
  rfl

theorem jumpIf_untaken {condition : Bool → Bool → Bool} {m : Machine}
    (h : condition m.zero m.sign = false) (arg : RawArgument) :
    jumpIf condition arg m = .ok () m := by
  rw [jumpIf, bind_ok (get_run m), if_neg (by rw [h]; exact Bool.false_ne_true)]
  rfl

/-- Only of a number does `JMP` make something else. -/
theorem jmp_taken {arg : RawArgument} (h : arg.type ≠ .number) : jmp arg = taken arg := by
  unfold jmp taken wordValue
  simp only [h, false_or]

theorem jmp_number (value : MemAddr) (m : Machine) :
    landing (.jmp ⟨.number, value⟩) m = .error (.throws (.unknownType .number)) := rfl

/-- The five jumps, with the operand `arg` fetched: a conditional jump whose condition
holds lands where `JMP` does or stops as it does, and one whose condition does not hold
is passed over. -/
structure JumpsAgree (m : Machine) (arg : RawArgument) : Prop where
  target : ∀ (j : ConditionalJump) (zero sign : Bool), j.holds zero sign = true →
    landing (j.instruction arg) (flagged zero sign m) = landing (.jmp arg) m
  passed : ∀ (j : ConditionalJump) (n : Machine) (bytes : List MemCell),
    readArgument bytes = some (arg, []) → Holds n.ram n.proc.pc.toNat (j.opcode :: bytes) →
    n.proc.pc.toNat + (j.opcode :: bytes).length ≤ ramSize → j.holds n.zero n.sign = false →
    step n = .ok () {past n (j.opcode :: bytes).length with row := n.row + 1}

/-- A turn at a conditional jump whose condition does not hold moves PC past it. -/
theorem step_passed {j : ConditionalJump} {n : Machine} {bytes : List MemCell} {arg : RawArgument}
    (hread : readArgument bytes = some (arg, []))
    (hat : Holds n.ram n.proc.pc.toNat (j.opcode :: bytes))
    (hfit : n.proc.pc.toNat + (j.opcode :: bytes).length ≤ ramSize)
    (hcond : j.holds n.zero n.sign = false) :
    step n = .ok () {past n (j.opcode :: bytes).length with row := n.row + 1} := by
  have harity : arity j.opcode = 1 := by cases j <;> rfl
  have hdecoded : readInstruction (j.opcode :: bytes) = some ((j.opcode, [arg]), []) := by
    simp [readInstruction, harity, readArguments, hread]
  have hlen := readInstruction_length hdecoded
  rw [List.length_nil, Nat.add_zero] at hlen
  rw [step_reads hat hfit hdecoded, ← hlen, j.decoded, complete, j.perform_eq,
    bind_ok (jumpIf_untaken (m := past n _) hcond arg)]
  rfl

/-- **Jumps agree on their target, except about a number**, which `JMP` does not take. -/
theorem jumps_agree (m : Machine) (arg : RawArgument) : JumpsAgree m arg ↔ arg.type ≠ .number := by
  constructor
  · rintro ⟨htarget, -⟩ hnumber
    obtain ⟨type, value⟩ := arg
    obtain rfl : type = .number := hnumber
    have hje := htarget .je true false rfl
    rw [jmp_number] at hje
    cases hje
  · intro hkind
    refine ⟨fun j zero sign hcond => ?_, fun j n bytes => step_passed⟩
    have hflagged : jumpIf j.holds arg (flagged zero sign m) = taken arg (flagged zero sign m) :=
      jumpIf_taken hcond arg
    unfold landing
    rw [j.perform_eq, hflagged, show perform (.jmp arg) = jmp arg from rfl, jmp_taken hkind]
    cases h : taken arg m with
    | ok _ m' => rw [(overlooks_taken zero sign arg).ok h]; rfl
    | error s m' => rw [(overlooks_taken zero sign arg).error h]

/-- `JMP 5`. -/
def jmpNumber : List MemCell := [0, 2, 0x31, 0, 5, 0xFF]

def jmpMachine : Machine := .headless (freshVM jmpNumber) (freshProcess jmpNumber) ⟨[], false⟩

/-- `JMP 5` throws where `JE 5` goes to 5. -/
theorem jumps_apart :
    fetchInstruction jmpMachine = .ok (.jmp ⟨.number, 5⟩) (past jmpMachine 3) ∧
    landing (.jmp ⟨.number, 5⟩) (past jmpMachine 3) = .error (.throws (.unknownType .number)) ∧
    landing (.je ⟨.number, 5⟩) (flagged true false (past jmpMachine 3)) = .ok 5 ∧
    ¬ JumpsAgree (past jmpMachine 3) ⟨.number, 5⟩ := by
  refine ⟨?_, jmp_number _ _, by decide, fun h => ?_⟩
  · have hat : Holds jmpMachine.ram jmpMachine.proc.pc.toNat [0x31, 0, 5] := ⟨rfl, rfl, rfl, trivial⟩
    have hread : readInstruction [0x31, 0, 5] = some ((0x31, [⟨.number, 5⟩]), []) := rfl
    exact fetchInstruction_reads hat (by decide) hread
  · have hje := h.target .je true false rfl
    rw [jmp_number] at hje
    exact absurd hje (by decide)

end CustomIsaVm
