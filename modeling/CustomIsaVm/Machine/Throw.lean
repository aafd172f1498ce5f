import CustomIsaVm.Machine.HeapRun
import CustomIsaVm.Machine.Walk

/-! What an instruction that throws leaves behind.

Most instructions read, check and only then write: they are put together from
`Reader`s, which change nothing but PC and the streams, and end in a `Silent` part,
which does not throw. The rules below follow the programs and come to `Tidy`: if the
instruction throws, RAM, the registers, the flags and the process are as they were.
`SPUSH`, `CALL` and `HALLOC` write before their last check; `throw_leaves` says when. -/
namespace CustomIsaVm

open Effect Exec Orbit

/-! ### What stays -/

/-- RAM, the registers, the flags and all of the process but PC are as they were. -/
structure Unchanged (m m' : Machine) : Prop where
  ram : m'.ram = m.ram
  registers : m'.registers = m.registers
  zero : m'.zero = m.zero
  sign : m'.sign = m.sign
  proc : {m'.proc with pc := m.proc.pc} = m.proc

theorem Unchanged.refl (m : Machine) : Unchanged m m := ⟨rfl, rfl, rfl, rfl, rfl⟩

theorem Unchanged.trans {m m' m'' : Machine} (h : Unchanged m m') (k : Unchanged m' m'') :
    Unchanged m m'' := by
  refine ⟨k.ram.trans h.ram, k.registers.trans h.registers, k.zero.trans h.zero, k.sign.trans h.sign, ?_⟩
  have hproc := congrArg (fun p : Process => {p with pc := m.proc.pc}) k.proc
  exact hproc.trans h.proc

theorem Unchanged.sp {m m' : Machine} (h : Unchanged m m') : m'.proc.sp = m.proc.sp := by
  rw [← h.proc]

namespace Exec
variable {α β : Type}

/-- A part that changes nothing, and ends. -/
def Reader (x : Exec α) : Prop :=
  ∀ m, Ensures x (fun _ => Unchanged m) (fun s m' => s ≠ .endless ∧ Unchanged m m') m

/-- A part that ends and does not throw. -/
def Silent (x : Exec α) : Prop := ∀ m, Ensures x (fun _ _ => True) (fun s _ => s = .undefined) m

/-- A part that ends, and changes nothing if it throws. -/
def Tidy (x : Exec α) : Prop :=
  ∀ m, Ensures x (fun _ _ => True) (fun s m' => s ≠ .endless ∧ ∀ e, s = .throws e → Unchanged m m') m

/-! ### Rules -/

theorem Reader.bind {x : Exec α} {f : α → Exec β} (hx : Reader x) (hf : ∀ a, Reader (f a)) :
    Reader (x >>= f) := by
  intro m
  rw [ensures_bind]
  refine (hx m).mono (fun a t hmt => ?_) fun _ _ h => h
  exact (hf a t).mono (fun _ _ h => hmt.trans h) fun _ _ h => ⟨h.1, hmt.trans h.2⟩

theorem Reader.pure (a : α) : Reader (Pure.pure a : Exec α) := fun m => .refl m

theorem Reader.get : Reader (MonadState.get : Exec Machine) := fun m => .refl m

theorem Reader.update {f : Machine → Machine} (h : ∀ m, Unchanged m (f m)) : Reader (modify f) := h

theorem Reader.undefined : Reader (throw .undefined : Exec α) := fun m => ⟨nofun, .refl m⟩

theorem Reader.raise (e : Error) : Reader (raise e : Exec α) := fun m => ⟨nofun, .refl m⟩

theorem Reader.ite {c : Prop} [Decidable c] {x y : Exec α} (hx : Reader x) (hy : Reader y) :
    Reader (if c then x else y) := by
  split
  · exact hx
  · exact hy

theorem Reader.raiseIf (c : Prop) [Decidable c] (e : Error) : Reader (raiseIf c e) :=
  .ite (.raise e) (.pure _)

theorem Silent.bind {x : Exec α} {f : α → Exec β} (hx : Silent x) (hf : ∀ a, Silent (f a)) :
    Silent (x >>= f) := by
  intro m
  rw [ensures_bind]
  exact (hx m).mono (fun a t _ => hf a t) fun _ _ h => h

theorem Silent.pure (a : α) : Silent (Pure.pure a : Exec α) := fun _ => trivial

theorem Silent.get : Silent (MonadState.get : Exec Machine) := fun _ => trivial

theorem Silent.update (f : Machine → Machine) : Silent (modify f) := fun _ => trivial

theorem Silent.ite {c : Prop} [Decidable c] {x y : Exec α} (hx : Silent x) (hy : Silent y) :
    Silent (if c then x else y) := by
  split
  · exact hx
  · exact hy

theorem Silent.tidy {x : Exec α} (h : Silent x) : Tidy x := fun m =>
  (h m).mono (fun _ _ _ => trivial) fun s _ hs => by subst hs; exact ⟨nofun, nofun⟩

theorem Reader.tidy {x : Exec α} (h : Reader x) : Tidy x := fun m =>
  (h m).mono (fun _ _ _ => trivial) fun _ _ hs => ⟨hs.1, fun _ _ => hs.2⟩

/-- What only read before does not matter. -/
theorem Tidy.bind {x : Exec α} {f : α → Exec β} (hx : Reader x) (hf : ∀ a, Tidy (f a)) :
    Tidy (x >>= f) := by
  intro m
  rw [ensures_bind]
  refine (hx m).mono (fun a t hmt => ?_) fun _ _ h => ⟨h.1, fun _ _ => h.2⟩
  exact (hf a t).mono (fun _ _ _ => trivial) fun _ _ h => ⟨h.1, fun e he => hmt.trans (h.2 e he)⟩

theorem Tidy.ite {c : Prop} [Decidable c] {x y : Exec α} (hx : Tidy x) (hy : Tidy y) :
    Tidy (if c then x else y) := by
  split
  · exact hx
  · exact hy

/-! ### Reading -/

theorem reader_load (access : Nat → Access) (i : Nat) : Reader (load access i) := by
  intro m
  rw [ensures_load]
  exact ⟨fun _ => ⟨rfl, rfl, rfl, rfl, rfl⟩, fun _ => ⟨nofun, rfl, rfl, rfl, rfl, rfl⟩⟩

theorem reader_registerIndex (arg : MemAddr) : Reader (registerIndex arg) := by
  unfold registerIndex
  split
  · exact .pure _
  · exact .undefined

theorem reader_resolveWriteableArg (type : ArgType) (arg : MemAddr) :
    Reader (resolveWriteableArg type arg) := by
  cases type with
  | register => exact .bind (reader_registerIndex _) fun _ => .pure _
  | address => exact .bind .get fun _ => .pure _
  | indirectMem => exact .bind .get fun _ => .pure _
  | indirectLbl =>
    exact .bind .get fun _ => .bind (reader_load _ _) fun _ => .bind (reader_load _ _) fun _ =>
      .bind .get fun _ => .pure _
  | indirectReg =>
    exact .bind (reader_registerIndex _) fun _ => .bind .get fun _ => .bind .get fun _ => .pure _
  | number => exact .raise _
  | number16 => exact .raise _
  | other b => exact .raise _

theorem reader_read (c : Cell) : Reader c.read := by
  cases c with
  | register r => exact .bind .get fun _ => .pure _
  | ram i => exact reader_load _ i

theorem reader_cellValue (arg : RawArgument) : Reader (cellValue arg) :=
  .bind (reader_resolveWriteableArg _ _) reader_read

theorem reader_operandValue (arg : RawArgument) : Reader (operandValue arg) :=
  .ite (.pure _) (reader_cellValue arg)

theorem reader_wordValue (c : Prop) [Decidable c] (arg : RawArgument) : Reader (wordValue c arg) :=
  .ite (.pure _) (.bind (reader_cellValue arg) fun _ => .pure _)

theorem reader_getGui : Reader getGui := .bind (reader_load _ _) fun _ => .pure _

theorem reader_inputValue : Reader inputValue := by
  have hextract : Reader extractInput := fun m => ⟨rfl, rfl, rfl, rfl, rfl⟩
  have hkey : Reader takeKey := fun m => ⟨rfl, rfl, rfl, rfl, rfl⟩
  refine .bind reader_getGui fun _ => .ite (.bind .get fun m => ?_) hextract
  cases m.window with
  | uninitialised => exact .undefined
  | null => exact hextract
  | opened => exact hkey

theorem reader_printed (bytes : List MemCell) : Reader (printed bytes) :=
  .update fun _ => ⟨rfl, rfl, rfl, rfl, rfl⟩

theorem reader_jumpTo (offset : MemAddr) : Reader (jumpTo offset) :=
  .update fun _ => ⟨rfl, rfl, rfl, rfl, rfl⟩

theorem reader_pixelIndex (index : RawArgument) : Reader (pixelIndex index) := by
  unfold pixelIndex
  cases index.type with
  | number => exact .pure _
  | number16 => exact .pure _
  | register => exact .bind (reader_cellValue _) fun _ => .bind (reader_cellValue _) fun _ => .pure _
  | indirectReg =>
    exact .bind .get fun _ => .bind (reader_registerIndex _) fun _ => .bind .get fun _ =>
      .bind (reader_load _ _) fun _ => .bind (reader_load _ _) fun _ => .pure _
  | indirectMem =>
    exact .bind .get fun _ => .bind (reader_load _ _) fun _ => .bind (reader_load _ _) fun _ => .pure _
  | address =>
    exact .bind .get fun _ => .bind (reader_load _ _) fun _ => .bind (reader_load _ _) fun _ => .pure _
  | indirectLbl => exact .pure _
  | other b => exact .pure _

theorem reader_convert (i n : Nat) : Reader (convert i n) := by
  induction n generalizing i with
  | zero => exact .pure _
  | succ n ih =>
    refine .bind (reader_load _ _) fun c => .bind ?_ fun _ => .bind (ih _) fun _ => .pure _
    unfold colorOf
    split
    · exact .pure _
    · exact .undefined

theorem reader_updateWindow : Reader updateWindow := fun m =>
  ensures_updateWindow ⟨nofun, .refl m⟩ (fun _ => .refl m) fun _ _ _ => ⟨rfl, rfl, rfl, rfl, rfl⟩

/-! ### Writing -/

theorem silent_store (access : Nat → Access) (i : Nat) (v : MemCell) : Silent (store access i v) := by
  intro m
  rw [ensures_store]
  exact ⟨fun _ => trivial, fun _ => rfl⟩

theorem silent_write (v : MemCell) (c : Cell) : Silent (c.write v) := by
  cases c with
  | register r => exact .update _
  | ram i => exact silent_store _ i v

theorem silent_writeHeader (start size : Nat) (status : HeapReg) : Silent (writeHeader start size status) :=
  .bind (silent_store _ _ _) fun _ => .bind (silent_store _ _ _) fun _ => silent_store _ _ _

theorem silent_carve (size chunk dimension : Nat) : Silent (carve size chunk dimension) :=
  .ite (.bind (silent_writeHeader _ _ _) fun _ => silent_writeHeader _ _ _) (silent_writeHeader _ _ _)

/-! ### Instructions -/

theorem tidy_assign (v : MemCell) (arg : RawArgument) :
    Tidy (do (← resolveWriteableArg arg.type arg.value).write v) :=
  .bind (reader_resolveWriteableArg _ _) fun c => (silent_write v c).tidy

theorem tidy_updateCell (op : MemCell → MemCell → MemCell) (a : RawArgument) (b : MemCell) :
    Tidy (updateCell op a b) :=
  .bind (reader_resolveWriteableArg _ _) fun c => .bind (reader_read c) fun _ => (silent_write _ c).tidy

theorem tidy_jumpIf (condition : Bool → Bool → Bool) (arg : RawArgument) : Tidy (jumpIf condition arg) :=
  .bind .get fun _ => .ite (.bind (reader_wordValue _ arg) fun _ => (reader_jumpTo _).tidy) (Reader.pure _).tidy

theorem tidy_spop (arg : RawArgument) : Tidy (spop arg) := by
  have hdeliver : ∀ v : MemCell, Tidy (do
      (← resolveWriteableArg arg.type arg.value).write v
      raiseSP (stackWidth arg.type)) := fun v =>
    .bind (reader_resolveWriteableArg _ _) fun c => ((silent_write v c).bind fun _ => .update _).tidy
  refine .bind .get fun _ => .bind (.raiseIf _ _) fun _ => .ite (.bind (reader_load _ _) hdeliver) ?_
  exact .bind (reader_load _ _) fun _ => .bind (reader_load _ _) fun _ => hdeliver _

theorem tidy_ret : Tidy ret :=
  .bind .get fun _ => .bind (.raiseIf _ _) fun _ => .bind (reader_load _ _) fun _ =>
    .bind (reader_load _ _) fun _ => ((Silent.update _).bind fun _ => .update _).tidy

theorem tidy_fbset (index color : RawArgument) : Tidy (fbset index color) :=
  .bind (.raiseIf _ _) fun _ => .bind reader_getGui fun _ => .bind (.raiseIf _ _) fun _ =>
    .bind (reader_pixelIndex _) fun _ => .bind (reader_operandValue _) fun _ =>
      .bind (.raiseIf _ _) fun _ => (silent_store _ _ _).tidy

theorem tidy_fbsync : Tidy fbsync :=
  .bind (reader_convert _ _) fun _ => .bind (.update fun _ => ⟨rfl, rfl, rfl, rfl, rfl⟩) fun _ =>
    .bind reader_updateWindow fun _ => .ite (reader_printed _).tidy (Reader.pure _).tidy

/-- The instructions that write before their last check, or loop. -/
def ChecksLate : Instruction → Prop
  | .spush _ | .call _ | .halloc _ _ | .hfree _ => True
  | _ => False

/-- **Every other instruction reads, checks and then writes.** -/
theorem tidy_perform {i : Instruction} (h : ¬ ChecksLate i) : Tidy (perform i) := by
  cases i with
  | nop => exact (Reader.pure _).tidy
  | mov dest src => exact .bind (reader_operandValue src) fun v => tidy_assign v dest
  | print el => exact .bind (reader_operandValue el) fun _ => (reader_printed _).tidy
  | printflush => exact (reader_printed _).tidy
  | add a b => exact .bind (reader_operandValue b) fun _ => tidy_updateCell _ a _
  | sub a b => exact .bind (reader_operandValue b) fun _ => tidy_updateCell _ a _
  | mul a b => exact .bind (reader_operandValue b) fun _ => tidy_updateCell _ a _
  | div a b =>
    exact .bind (reader_operandValue b) fun _ => .bind (.raiseIf _ _) fun _ => tidy_updateCell _ a _
  | input arg => exact .bind reader_inputValue fun v => tidy_assign v arg
  | jmp target => exact .bind (reader_wordValue _ target) fun _ => (reader_jumpTo _).tidy
  | cmp arg1 arg2 =>
    exact .bind (reader_operandValue arg1) fun _ => .bind (reader_operandValue arg2) fun _ =>
      (Silent.update _).tidy
  | je arg => exact tidy_jumpIf (fun zero _ => zero) arg
  | jne arg => exact tidy_jumpIf (fun zero _ => !zero) arg
  | jg arg => exact tidy_jumpIf (fun _ sign => sign) arg
  | jng arg => exact tidy_jumpIf (fun _ sign => !sign) arg
  | spush arg => exact absurd trivial h
  | spop arg => exact tidy_spop arg
  | halloc place size => exact absurd trivial h
  | hfree userstart => exact absurd trivial h
  | call arg => exact absurd trivial h
  | ret => exact tidy_ret
  | fbset index color => exact tidy_fbset index color
  | fbsync => exact tidy_fbsync
  | halt => exact (Silent.update _).tidy
  | unknown opcode => exact .bind .get fun _ => (Reader.raise _).tidy

/-! ### The operands of the rest -/

theorem silent_load (access : Nat → Access) (i : Nat) : Silent (load access i) := by
  intro m
  rw [ensures_load]
  exact ⟨fun _ => trivial, fun _ => rfl⟩

theorem silent_registerIndex (arg : MemAddr) : Silent (registerIndex arg) := by
  unfold registerIndex
  split
  · exact .pure _
  · exact fun _ => rfl

/-- An operand whose kind names a cell does not raise. -/
theorem silent_resolveWriteableArg {type : ArgType} (h : type.hasCell = true) (arg : MemAddr) :
    Silent (resolveWriteableArg type arg) := by
  cases type with
  | register => exact .bind (silent_registerIndex _) fun _ => .pure _
  | address => exact .bind .get fun _ => .pure _
  | indirectMem => exact .bind .get fun _ => .pure _
  | indirectLbl =>
    exact .bind .get fun _ => .bind (silent_load _ _) fun _ => .bind (silent_load _ _) fun _ =>
      .bind .get fun _ => .pure _
  | indirectReg =>
    exact .bind (silent_registerIndex _) fun _ => .bind .get fun _ => .bind .get fun _ => .pure _
  | number => cases h
  | number16 => cases h
  | other b => cases h

theorem silent_cellValue {arg : RawArgument} (h : arg.type.hasCell = true) : Silent (cellValue arg) := by
  refine .bind (silent_resolveWriteableArg h _) fun c => ?_
  cases c with
  | register r => exact .bind .get fun _ => .pure _
  | ram i => exact silent_load _ i

theorem silent_wordValue {p : Prop} [Decidable p] {arg : RawArgument} (h : p ∨ arg.type.hasCell = true) :
    Silent (wordValue p arg) := by
  unfold wordValue
  split
  · exact .pure _
  · exact .bind (silent_cellValue (h.resolve_left ‹_›)) fun _ => .pure _

theorem silent_assign {arg : RawArgument} (h : arg.type.hasCell = true) (v : MemCell) :
    Silent (do (← resolveWriteableArg arg.type arg.value).write v) :=
  .bind (silent_resolveWriteableArg h _) (silent_write v)

theorem Silent.not_throws {x : Exec α} (h : Silent x) {m m' : Machine} {e : Error} :
    x m ≠ .error (.throws e) m' := fun hx => by cases (h m).error hx

/-- The value of a word operand, as a function of the machine. -/
def wordOf (p : Prop) [Decidable p] (m : Machine) (arg : RawArgument) : Option MemAddr :=
  if p then some arg.value
  else ((cellOf m arg).filter fun c => c.Exists).map fun c => (c.value m).toUInt16

theorem wordOf_some {p : Prop} [Decidable p] {m : Machine} {arg : RawArgument} {v : MemAddr} :
    wordOf p m arg = some v ↔ ∃ t, wordValue p arg m = .ok v (recorded m t) := by
  unfold wordOf
  by_cases hp : p
  · rw [if_pos hp, wordValue, if_pos hp]
    constructor
    · intro h
      cases h
      exact ⟨m.touched, rfl⟩
    · rintro ⟨t, ht⟩
      exact congrArg some (EStateM.Result.ok.inj ht).1
  · rw [if_neg hp, Option.map_eq_some_iff]
    constructor
    · rintro ⟨c, hc, rfl⟩
      rw [Option.filter_eq_some_iff, decide_eq_true_eq] at hc
      exact wordValue_run ⟨hc.1, hc.2⟩ hp
    · rintro ⟨t, ht⟩
      rw [wordValue, if_neg hp] at ht
      obtain ⟨w, m₁, hw, hv⟩ := bind_eq_ok.mp ht
      cases hv
      obtain ⟨c, m₂, hc, hread⟩ := bind_eq_ok.mp hw
      obtain ⟨hcell, u, rfl⟩ := resolve_eq_ok hc
      refine ⟨c, Option.filter_eq_some_iff.mpr ⟨hcell, ?_⟩, ?_⟩
      · cases c with
        | register r => rfl
        | ram i => exact decide_eq_true (load_eq_ok hread).2.1
      · rw [read_eq_ok hread]
        cases c <;> rfl

/-! ### The rest -/

/-- `HALLOC` with the size it asks for goes where the headers lead, and then carves. -/
theorem halloc_walk {m : Machine} (place : RawArgument) {size : RawArgument} {v : MemAddr}
    {t : List Access} (hlimit : m.proc.heapLimit.toNat + 2 ≤ ramSize)
    (hv : wordValue (size.type = .number) size m = .ok v (recorded m t)) :
    ∃ u, halloc place size m =
      match stop (scanNext m.ram m.proc.heapLimit v.toNat) loopFuel m.proc.heapStart with
      | none => .error .endless (recorded m u)
      | some c => if m.proc.heapLimit ≤ c then .error (.throws .heapOverflow) (recorded m u)
        else (do
          carve v.toNat c.toNat (sizeAt m.ram c)
          (← resolveWriteableArg place.type place.value).write
            (c + UInt16.ofNat heapHeaderBlockSize).toUInt8 : Exec Unit) (recorded m u) := by
  obtain ⟨u, hu⟩ := hallocScan_walk hlimit v.toNat loopFuel m.proc.heapStart t
  refine ⟨u, ?_⟩
  rw [halloc, bind_ok hv, bind_ok (get_run _), recorded_proc, bind_run, hu]
  cases stop (scanNext m.ram m.proc.heapLimit v.toNat) loopFuel m.proc.heapStart with
  | none => rfl
  | some c =>
    dsimp only
    by_cases hpast : m.proc.heapLimit ≤ c
    · rw [if_pos hpast, if_pos hpast]
    · rw [if_neg hpast, if_neg hpast]

/-- The status byte that `HFREE` looks at. -/
def guardOf (v : MemAddr) : Nat := (v - UInt16.ofNat heapHeaderBlockSize).toNat + 2

/-- RAM as `HFREE` enters its loop. -/
def marked (ram : Nat → MemCell) (v : MemAddr) : Nat → MemCell :=
  Function.update ram (guardOf v) HeapReg.free.toByte

/-- `HFREE` with its pointer looks at one byte and goes where the headers lead. -/
theorem hfree_walk {m : Machine} {arg : RawArgument} {v : MemAddr} {t : List Access}
    (hlimit : m.proc.heapLimit.toNat + 2 ≤ ramSize)
    (hv : wordValue (arg.type = .address) arg m = .ok v (recorded m t)) :
    ∃ ram u, hfree arg m =
      if ramSize ≤ guardOf v then .error .undefined (recorded m u)
      else if m.ram (guardOf v) ≠ HeapReg.owned.toByte then
        .error (.throws .freeingFree) (recorded m u)
      else match stop (coalesceNext m.proc.heapLimit) loopFuel (m.proc.heapStart, marked m.ram v) with
        | none => .error .endless (recorded (withRam m ram) u)
        | some s => .ok () (recorded (withRam m s.2) u) := by
  rw [hfree, bind_ok hv]
  by_cases hin : guardOf v < ramSize
  · obtain ⟨u, hu⟩ := load_again (m := m) .load hin t
    by_cases howned : m.ram (guardOf v) = HeapReg.owned.toByte
    · obtain ⟨w, hw⟩ := store_run (m := recorded m u) (v := HeapReg.free.toByte) .store hin
      obtain ⟨ram, x, hx⟩ := coalesce_walk (m := m) hlimit loopFuel m.proc.heapStart (marked m.ram v) w
      refine ⟨ram, x, ?_⟩
      rw [if_neg (Nat.not_le.mpr hin), if_neg (not_not.mpr howned)]
      refine Eq.trans ?_ hx
      refine (bind_ok hu).trans ((bind_ok (raiseIf_run (not_not.mpr howned))).trans ?_)
      exact (bind_ok hw).trans ((bind_ok (get_run _)).trans rfl)
    · refine ⟨m.ram, u, ?_⟩
      rw [if_neg (Nat.not_le.mpr hin), if_pos howned]
      exact (bind_ok hu).trans (bind_error (raiseIf_raises howned))
  · refine ⟨m.ram, .load (guardOf v) :: t, ?_⟩
    rw [if_pos (Nat.not_lt.mp hin)]
    exact bind_error (if_neg hin)

/-- What `HALLOC` carves is marked as owned. -/
theorem carve_owned (size chunk dimension : Nat) (m : Machine) :
    Ensures (carve size chunk dimension) (fun _ m' => m'.ram (chunk + 2) = HeapReg.owned.toByte)
      (fun _ _ => True) m := by
  have hheader : ∀ (n : Nat) (m : Machine), Ensures (writeHeader chunk n .owned)
      (fun _ m' => m'.ram (chunk + 2) = HeapReg.owned.toByte) (fun _ _ => True) m := by
    intro n m
    simp [writeHeader]
  unfold carve
  split
  · rw [ensures_bind]
    exact (silent_writeHeader _ _ _ m).mono (fun _ m' _ => hheader _ m') fun _ _ _ => trivial
  · exact hheader _ m

theorem sp_lowered {sp : MemAddr} {n : Nat} (hpos : 1 ≤ n) (hn : n ≤ 2) : sp - UInt16.ofNat n ≠ sp := by
  intro h
  have := congrArg UInt16.toNat h
  rw [UInt16.toNat_sub, UInt16.toNat_ofNat'] at this
  have := sp.toNat_lt
  omega

end Exec

/-! ### What a throw leaves -/

/-- The instruction has written something by the time it finds out that it must throw:
`SPUSH` and `CALL` have lowered SP when they see that the stack is full, and `HALLOC` has
carved a block when it sees that the destination is not a cell. -/
def WritesFirst (m : Machine) : Instruction → Prop
  | .spush arg => arg.type = .number ∨ arg.type.hasCell = true
  | .call arg => arg.type = .address
  | .halloc _ size => ∃ v c, wordOf (size.type = .number) m size = some v ∧
      stop (scanNext m.ram m.proc.heapLimit v.toNat) loopFuel m.proc.heapStart = some c ∧
      c < m.proc.heapLimit
  | _ => False

section
variable {m m' : Machine} {e : Error}

/-- What throws after SP was lowered leaves it lowered. -/
theorem lowered_throws {n : Nat} {k : Process → Exec Unit} (hk : ∀ p, Silent (k p))
    (h : (do
      lowerSP n
      let proc := (← get).proc
      raiseIf (proc.sp < proc.stackLimit) .stackOverflow
      k proc : Exec Unit) m = .error (.throws e) m') : m'.proc.sp = m.proc.sp - UInt16.ofNat n := by
  have hrun : Ensures (do
      lowerSP n
      let proc := (← get).proc
      raiseIf (proc.sp < proc.stackLimit) .stackOverflow
      k proc : Exec Unit) (fun _ _ => True)
      (fun s m' => s = .undefined ∨ m'.proc.sp = m.proc.sp - UInt16.ofNat n) m := by
    rw [ensures_bind, lowerSP, ensures_modify, ensures_bind, ensures_get, ensures_bind, ensures_raiseIf]
    exact ⟨fun _ => .inr rfl, fun _ => (hk _ _).mono (fun _ _ _ => trivial) fun _ _ => .inl⟩
  rcases hrun.error h with hs | hsp
  · cases hs
  · exact hsp

/-- A word operand that has a value is of a kind that has one. -/
theorem wordValue_kind {p : Prop} [Decidable p] {arg : RawArgument} {v : MemAddr}
    (h : wordValue p arg m = .ok v m') : p ∨ arg.type.hasCell = true := by
  by_cases hp : p
  · exact .inl hp
  · right
    have hcell := wordValue_eq_ok h
    rw [if_neg hp, Option.map_eq_some_iff] at hcell
    obtain ⟨c, hc, _⟩ := hcell
    unfold cellOf at hc
    cases htype : arg.type <;> rw [htype] at hc <;> first | rfl | cases hc

theorem spush_leaves {arg : RawArgument} (h : spush arg m = .error (.throws e) m') :
    Unchanged m m' ↔ ¬ WritesFirst m (.spush arg) := by
  rw [spush, bind_run] at h
  cases hv : wordValue (arg.type = .number) arg m with
  | error s m₁ =>
    rw [hv] at h
    cases h
    have hread := ((reader_wordValue _ arg) m).error hv
    exact ⟨fun _ hkind => (silent_wordValue hkind).not_throws hv, fun _ => hread.2⟩
  | ok v m₁ =>
    rw [hv] at h
    dsimp only at h
    have hread := ((reader_wordValue _ arg) m).ok hv
    have hsp := lowered_throws (k := fun proc => if stackWidth arg.type = 1 then
        store .store proc.sp.toNat (lowByte v.toNat)
      else do
        store .store proc.sp.toNat (highByte v.toNat)
        store .store (proc.sp.toNat + 1) (lowByte v.toNat))
      (fun _ => .ite (silent_store _ _ _) (.bind (silent_store _ _ _) fun _ => silent_store _ _ _)) h
    refine iff_of_false (fun hsame => ?_) (not_not.mpr (wordValue_kind hv))
    have hwidth := stackWidth_le arg.type
    exact sp_lowered hwidth.1 hwidth.2 (hsp.symm.trans (hsame.sp.trans hread.sp.symm))

theorem call_leaves {arg : RawArgument} (h : call arg m = .error (.throws e) m') :
    Unchanged m m' ↔ ¬ WritesFirst m (.call arg) := by
  by_cases hkind : arg.type = .address
  · rw [call, bind_ok (raiseIf_run (not_not.mpr hkind)), bind_ok (get_run m)] at h
    have hsp := lowered_throws (n := 2) (k := fun proc => do
        store .store proc.sp.toNat (highByte m.proc.pc.toNat)
        store .store (proc.sp.toNat + 1) (lowByte m.proc.pc.toNat)
        modify fun m => {m with proc := {m.proc with pc := arg.value}})
      (fun _ => .bind (silent_store _ _ _) fun _ => .bind (silent_store _ _ _) fun _ => .update _) h
    refine iff_of_false (fun hsame => ?_) (not_not.mpr hkind)
    exact sp_lowered (n := 2) (by decide) (by decide) (by rw [← hsp, hsame.sp])
  · rw [call, bind_error (raiseIf_raises hkind)] at h
    cases h
    exact iff_of_true (.refl m) hkind

theorem hfree_leaves {arg : RawArgument} (hlimit : m.proc.heapLimit.toNat + 2 ≤ ramSize)
    (h : hfree arg m = .error (.throws e) m') : Unchanged m m' := by
  cases hv : wordValue (arg.type = .address) arg m with
  | error s m₁ =>
    rw [hfree, bind_error hv] at h
    cases h
    exact (((reader_wordValue _ arg) m).error hv).2
  | ok v m₁ =>
    obtain ⟨t, rfl⟩ := (records_wordValue _ arg).ok hv
    obtain ⟨ram, u, hrun⟩ := hfree_walk hlimit hv
    rw [hrun] at h
    split at h
    · cases h
    · split at h
      · cases h
        exact ⟨rfl, rfl, rfl, rfl, rfl⟩
      · split at h <;> cases h

theorem halloc_leaves {place size : RawArgument} (hlimit : m.proc.heapLimit.toNat + 2 ≤ ramSize)
    (h : halloc place size m = .error (.throws e) m') :
    Unchanged m m' ↔ ¬ WritesFirst m (.halloc place size) := by
  cases hv : wordValue (size.type = .number) size m with
  | error s m₁ =>
    rw [halloc, bind_error hv] at h
    cases h
    refine iff_of_true (((reader_wordValue _ size) m).error hv).2 ?_
    rintro ⟨v, c, hsome, _⟩
    obtain ⟨t, ht⟩ := wordOf_some.mp hsome
    rw [hv] at ht
    cases ht
  | ok v m₁ =>
    obtain ⟨t, rfl⟩ := (records_wordValue _ size).ok hv
    have hword := wordOf_some.mpr ⟨t, hv⟩
    obtain ⟨u, hrun⟩ := halloc_walk place hlimit hv
    rw [hrun] at h
    split at h
    · cases h
    · rename_i c hstop
      split at h
      · rename_i hpast
        cases h
        refine iff_of_true ⟨rfl, rfl, rfl, rfl, rfl⟩ ?_
        rintro ⟨v', c', hsome, hstop', hlt⟩
        cases hword.symm.trans hsome
        cases hstop.symm.trans hstop'
        exact UInt16.not_le.mpr hlt hpast
      · rename_i hpast
        refine iff_of_false (fun hsame => ?_) (not_not.mpr ⟨v, c, hword, hstop, UInt16.not_le.mp hpast⟩)
        -- The block found is not owned, and is marked as owned before the destination is looked at.
        have hnone := (stop_some (P := fun _ => True) (fun _ _ _ _ => trivial) trivial hstop).1
        rw [scanNext, if_neg hpast] at hnone
        rw [bind_run] at h
        cases hcarve : carve v.toNat c.toNat (sizeAt m.ram c) (recorded m u) with
        | error s m₂ =>
          rw [hcarve] at h
          cases h
          exact (silent_carve _ _ _).not_throws hcarve
        | ok _ m₂ =>
          rw [hcarve] at h
          have howned := (carve_owned _ _ _ _).ok hcarve
          have hkept := ((tidy_assign (c + UInt16.ofNat heapHeaderBlockSize).toUInt8 place) m₂).error h
          have hram := (hkept.2 e rfl).ram
          rw [← hram, hsame.ram] at howned
          split at hnone
          · rename_i hserves
            exact hserves.1 howned
          · cases hnone

end

theorem Loaded.limit_lt {size : Nat} {p : Process} (h : Loaded size p) :
    p.heapLimit.toNat + 2 ≤ ramSize := by
  have hfits := h.fits
  have hlimit := h.heapLimit
  have hflag : guiFlag = 59903 := rfl
  have hram : ramSize = 64000 := rfl
  omega

/-- **A step that throws leaves the machine as it was, unless the instruction writes
first.** -/
theorem throw_leaves {m m' : Machine} {size : Nat} (hl : Loaded size m.proc) (hgo : m.goesOn = true)
    {e : Error} (h : step m = .error (.throws e) m') : Unchanged m m' ↔ ¬ WritesFirst m (current m) := by
  have hfetched : Unchanged m (fetched m) := ⟨rfl, rfl, rfl, rfl, rfl⟩
  have hback : Unchanged (fetched m) m := ⟨rfl, rfl, rfl, rfl, rfl⟩
  have hlimit : (fetched m).proc.heapLimit.toNat + 2 ≤ ramSize := hl.limit_lt
  have hperform := Machine.step_error hl hgo h
  have hall : Unchanged (fetched m) m' ↔ ¬ WritesFirst (fetched m) (current m) := by
    by_cases hlate : ChecksLate (current m)
    · cases hi : current m <;> rw [hi] at hlate hperform <;> try exact hlate.elim
      · exact spush_leaves hperform
      · exact halloc_leaves hlimit hperform
      · exact iff_of_true (hfree_leaves hlimit hperform) not_false
      · exact call_leaves hperform
    · refine iff_of_true ((((tidy_perform hlate) (fetched m)).error hperform).2 e rfl) ?_
      cases hi : current m <;> rw [hi] at hlate <;> first | exact not_false | exact absurd trivial hlate
  have hsame : WritesFirst (fetched m) (current m) ↔ WritesFirst m (current m) := Iff.rfl
  rw [← hsame, ← hall]
  exact ⟨fun h => hback.trans h, fun h => hfetched.trans h⟩

/-- `CALL 5`, whose operand is a number. -/
def callNumber : List MemCell := [0, 2, 0xB1, 0, 5, 0xFF]

def callNumberMachine : Machine := .boot (freshVM callNumber) (freshProcess callNumber) ⟨[], false⟩ .null []

theorem throw_leaves_callNumber : ∃ m', step callNumberMachine = .error (.throws .nonLabelCall) m' ∧
    (Unchanged callNumberMachine m' ↔ ¬ WritesFirst callNumberMachine (current callNumberMachine)) := by
  have hl : Loaded 6 callNumberMachine.proc :=
    (Session.fresh.load_loaded (load_fresh (by decide : callNumber.length + 2000 ≤ guiFlag))).1
  have hgo : callNumberMachine.goesOn = true := by decide
  have hi : current callNumberMachine = .call ⟨.number, 5⟩ := by decide
  have hstep : step callNumberMachine = .error (.throws .nonLabelCall) (fetched callNumberMachine) := by
    rw [Machine.step_fetched hl hgo, complete, hi]
    exact bind_error (bind_error (raiseIf_raises (by decide)))
  exact ⟨_, hstep, throw_leaves hl hgo hstep⟩

/-- `HALLOC 5, 16`, whose destination is a number. -/
def hallocNowhere : List MemCell := [0, 2, 0xC2, 0, 5, 0, 16, 0xFF]

def nowhereMachine : Machine :=
  .boot (freshVM hallocNowhere) (freshProcess hallocNowhere) ⟨[], false⟩ .null []

/-- The block is carved all the same. -/
theorem throw_leaves_nowhere : VM.fresh.load hallocNowhere = .ok (freshProcess hallocNowhere, freshVM hallocNowhere) ∧
    ∃ m', step nowhereMachine = .error (.throws (.unknownType .number)) m' ∧
      nowhereMachine.ram 10 = 0 ∧ m'.ram 10 = 1 ∧ ¬ Unchanged nowhereMachine m' := by
  have hload : VM.fresh.load hallocNowhere = _ := load_fresh (by decide)
  have hinv : HeapInv (fetched nowhereMachine) ([] ++ [⟨1000, false⟩]) :=
    (heapInv_load .fresh hload ⟨[], false⟩ .null []).congr (fetched_layout _) rfl
  have hl : Loaded 8 nowhereMachine.proc := (Session.fresh.load_loaded hload).1
  have hi : current nowhereMachine = .halloc ⟨.number, 5⟩ ⟨.number, 16⟩ := by decide
  have hv : wordValue ((⟨.number, 16⟩ : RawArgument).type = .number) ⟨.number, 16⟩ (fetched nowhereMachine) =
    .ok 16 (recorded (fetched nowhereMachine) (fetched nowhereMachine).touched) := rfl
  obtain ⟨u, ram, hrun, hchain, _⟩ := halloc_serves ⟨.number, 5⟩ hinv hv (by simp) (by decide)
  have howned : ram 10 = 1 := hchain.1.2
  have hbefore : nowhereMachine.ram 10 = 0 := by decide
  refine ⟨hload, recorded (withRam (fetched nowhereMachine) ram) u, ?_, hbefore, howned, fun hsame => ?_⟩
  · rw [Machine.step_fetched hl (by decide), complete, hi]
    exact bind_error (hrun.trans rfl)
  · have hram : ram 10 = nowhereMachine.ram 10 := congrFun hsame.ram 10
    rw [howned, hbefore] at hram
    cases hram

end CustomIsaVm
