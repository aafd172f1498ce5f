import CustomIsaVm.Assembler.RoundTrip
import CustomIsaVm.Machine.Framebuffer
import CustomIsaVm.Machine.Words

/-! Programs that cannot go wrong.

Nothing in `exec` keeps a program from overwriting its own code, from jumping into the
middle of an instruction or from leaving its segment. `Checked` is what can be asked of
an image before it runs: some of its first bytes, at least 256, are data; what follows
them decodes into instructions that compute, compare, use the stack and jump to one
another, and whose other operands are registers or data. A `[register]` operand reaches
the first 256 bytes of the segment only, so such a program never writes to its code, and
in every run each turn finds an instruction of the image at PC (`checked_safe`). -/
namespace CustomIsaVm
open Effect Exec

/-! ### What is asked of an image -/

/-- An operand that denotes a register or one of the first `data` cells of the segment. -/
def DataOperand (data : Nat) (a : RawArgument) : Prop :=
  match a.type with
  | .register | .indirectReg => 1 ≤ a.value.toNat ∧ a.value.toNat ≤ 5
  | .address | .indirectMem => a.value.toNat < data
  | .number | .number16 | .indirectLbl | .other _ => False

/-- An operand with a value. -/
def SourceOperand (data : Nat) (a : RawArgument) : Prop := a.type = .number ∨ DataOperand data a

/-- Where the instructions start when the first is at `o`, and where the last ends. -/
def starts : Nat → List Decoded → List Nat
  | o, [] => [o]
  | o, d :: ds => o :: starts (o + (1 + encodedSize d.2)) ds

/-- The instructions with the places they start at. -/
def listing : Nat → List Decoded → List (Nat × Decoded)
  | _, [] => []
  | o, d :: ds => (o, d) :: listing (o + (1 + encodedSize d.2)) ds

/-- The address of an instruction. -/
def TargetOperand (data : Nat) (ds : List Decoded) (a : RawArgument) : Prop :=
  a.type = .address ∧ a.value.toNat ∈ starts data ds

/-- An instruction whose operands are of the right sort. -/
def WellSorted (data : Nat) (ds : List Decoded) : Instruction → Prop
  | .nop | .printflush | .halt => True
  | .mov dest src | .add dest src | .sub dest src | .mul dest src | .div dest src =>
    DataOperand data dest ∧ SourceOperand data src
  | .cmp arg1 arg2 => SourceOperand data arg1 ∧ SourceOperand data arg2
  | .print arg | .spush arg => SourceOperand data arg
  | .input arg | .spop arg => DataOperand data arg
  | .jmp arg | .je arg | .jne arg | .jg arg | .jng arg => TargetOperand data ds arg
  | .halloc _ _ | .hfree _ | .call _ | .ret | .fbset _ _ | .fbsync | .unknown _ => False

instance (data : Nat) : (a : RawArgument) → Decidable (DataOperand data a)
  | ⟨.register, v⟩ | ⟨.indirectReg, v⟩ => inferInstanceAs (Decidable (1 ≤ v.toNat ∧ v.toNat ≤ 5))
  | ⟨.address, v⟩ | ⟨.indirectMem, v⟩ => inferInstanceAs (Decidable (v.toNat < data))
  | ⟨.number, _⟩ | ⟨.number16, _⟩ | ⟨.indirectLbl, _⟩ | ⟨.other _, _⟩ => .isFalse id

instance (data : Nat) (a : RawArgument) : Decidable (SourceOperand data a) :=
  inferInstanceAs (Decidable (a.type = .number ∨ DataOperand data a))

instance (data : Nat) (ds : List Decoded) (a : RawArgument) : Decidable (TargetOperand data ds a) :=
  inferInstanceAs (Decidable (a.type = .address ∧ a.value.toNat ∈ starts data ds))

instance (data : Nat) (ds : List Decoded) : (i : Instruction) → Decidable (WellSorted data ds i)
  | .nop | .printflush | .halt => .isTrue trivial
  | .mov dest src | .add dest src | .sub dest src | .mul dest src | .div dest src =>
    inferInstanceAs (Decidable (DataOperand data dest ∧ SourceOperand data src))
  | .cmp arg1 arg2 => inferInstanceAs (Decidable (SourceOperand data arg1 ∧ SourceOperand data arg2))
  | .print arg | .spush arg => inferInstanceAs (Decidable (SourceOperand data arg))
  | .input arg | .spop arg => inferInstanceAs (Decidable (DataOperand data arg))
  | .jmp arg | .je arg | .jne arg | .jg arg | .jng arg => inferInstanceAs (Decidable (TargetOperand data ds arg))
  | .halloc _ _ | .hfree _ | .call _ | .ret | .fbset _ _ | .fbsync | .unknown _ => .isFalse id

/-- The operand of a jump. -/
def jumpOperand : Instruction → Option RawArgument
  | .jmp arg | .je arg | .jne arg | .jg arg | .jng arg => some arg
  | _ => none

/-- The first bytes of an image are data, and the others instructions, one of them the first to run. -/
structure Sectioned (data : Nat) (image : List MemCell) (ds : List Decoded) : Prop where
  registers : 256 ≤ data
  inside : data ≤ image.length
  code : Decodes (image.drop data) ds
  entry : ∃ high low rest, image = high :: low :: rest ∧ (word high low).toNat ∈ starts data ds

structure Checked (data : Nat) (image : List MemCell) (ds : List Decoded) : Prop
    extends Sectioned data image ds where
  sorts : ∀ d ∈ ds, WellSorted data ds d.instruction

theorem readArguments_suffix {n : Nat} {bytes rest : List MemCell} {args : List RawArgument}
    (h : readArguments n bytes = some (args, rest)) : rest <:+ bytes := by
  induction n generalizing bytes args with
  | zero =>
    cases h
    exact List.suffix_refl _
  | succ n ih =>
    obtain ⟨a, args', mid, ha, hargs, rfl⟩ := readArguments_succ h
    refine (ih hargs).trans ?_
    obtain ⟨t, -, ⟨-, -, rfl⟩ | ⟨v, -, -, rfl⟩ | ⟨high, low, -, -, rfl⟩⟩ := readArgument_cases ha
    · exact ⟨[t], rfl⟩
    · exact ⟨[t, v], rfl⟩
    · exact ⟨[t, high, low], rfl⟩

/-- What is left after an instruction stands behind its bytes. -/
theorem readInstruction_suffix {bytes rest : List MemCell} {d : Decoded}
    (h : readInstruction bytes = some (d, rest)) :
    ∃ taken, bytes = taken ++ rest ∧ taken.length = 1 + encodedSize d.2 := by
  have hlen := readInstruction_length h
  cases bytes with
  | nil => cases h
  | cons opcode bytes =>
    obtain ⟨args, hargs, rfl⟩ := readInstruction_cons h
    obtain ⟨taken, rfl⟩ := readArguments_suffix hargs
    refine ⟨opcode :: taken, rfl, ?_⟩
    simp only [List.length_cons, List.length_append] at hlen ⊢
    omega

theorem le_starts {o k : Nat} {ds : List Decoded} (h : k ∈ starts o ds) : o ≤ k := by
  induction ds generalizing o with
  | nil => exact (List.mem_singleton.mp h).ge
  | cons d ds ih =>
    rcases List.mem_cons.mp h with rfl | h
    · exact Nat.le_refl k
    · have := ih h
      omega

theorem mem_listing {o k : Nat} {d : Decoded} {ds : List Decoded} (h : (k, d) ∈ listing o ds) : d ∈ ds := by
  induction ds generalizing o with
  | nil => cases h
  | cons e ds ih =>
    rcases List.mem_cons.mp h with heq | h
    · cases heq
      exact List.mem_cons_self ..
    · exact List.mem_cons_of_mem e (ih h)

/-- The instruction at a start. -/
theorem at_start {bytes : List MemCell} {ds : List Decoded} (h : Decodes bytes ds) {o k : Nat}
    (hk : k ∈ starts o ds) : k = o + bytes.length ∨ ∃ d front back rest, (k, d) ∈ listing o ds ∧ bytes = front ++ back ∧
      k = o + front.length ∧ readInstruction back = some (d, rest) ∧
        k + (1 + encodedSize d.2) ∈ starts o ds := by
  induction h generalizing o with
  | nil =>
    rw [List.mem_singleton.mp hk]
    exact .inl rfl
  | @cons bytes rest d ds hd hrest ih =>
    have hlen := readInstruction_length hd
    rcases List.mem_cons.mp hk with rfl | hk
    · refine .inr ⟨d, [], bytes, rest, List.mem_cons_self .., rfl, rfl, hd, List.mem_cons_of_mem _ ?_⟩
      cases ds <;> exact List.mem_cons_self ..
    · rcases ih hk with rfl | ⟨e, front, back, rest', he, rfl, hlength, hread, hnext⟩
      · exact .inl (by omega)
      · obtain ⟨taken, rfl, htaken⟩ := readInstruction_suffix hd
        refine .inr ⟨e, taken ++ front, back, rest', List.mem_cons_of_mem _ he, by rw [List.append_assoc], ?_, hread,
          List.mem_cons_of_mem _ hnext⟩
        rw [List.length_append, hlength, htaken, Nat.add_assoc]

theorem Sectioned.starts_le {data : Nat} {image : List MemCell} {ds : List Decoded} (h : Sectioned data image ds)
    {k : Nat} (hk : k ∈ starts data ds) : k ≤ image.length := by
  have hinside := h.inside
  have hlen : (image.drop data).length = image.length - data := List.length_drop
  rcases at_start h.code hk with rfl | ⟨d, front, back, rest, -, heq, rfl, -⟩
  · omega
  · rw [heq, List.length_append] at hlen
    omega

/-! ### What a run keeps -/

/-- What does not depend on PC: the code is in place, and SP is in its window. -/
structure Guarded (data : Nat) (image : List MemCell) (m : Machine) : Prop where
  loaded : Loaded image.length m.proc
  code : Holds m.ram (m.proc.firstSector.toNat + data) (image.drop data)
  stack : ∃ s, Stacked m s
  window : m.getGui = true → m.window ≠ .uninitialised

theorem Stacked.unique {m : Machine} {s s' : List MemCell} (h : Stacked m s) (h' : Stacked m s') : s = s' :=
  h.eq_stackBytes.trans h'.eq_stackBytes.symm

/-- A register, or one of the first `data` cells of the segment. -/
def Exec.Cell.InData (data : Nat) (p : Process) : Exec.Cell → Prop
  | .register _ => True
  | .ram i => p.firstSector.toNat ≤ i ∧ i < p.firstSector.toNat + data

section Guarded
variable {data : Nat} {image : List MemCell} {ds : List Decoded} {i : Instruction} {m m' : Machine}

theorem Guarded.congr (h : Guarded data image m) (hlayout : m.proc.SameLayout m'.proc)
    (hsp : m'.proc.sp = m.proc.sp) (hram : m'.ram = m.ram) (hwindow : m'.window = m.window) :
    Guarded data image m' := by
  obtain ⟨s, hs⟩ := h.stack
  refine ⟨hlayout.loaded h.loaded, by rw [hram, hlayout.firstSector]; exact h.code,
    ⟨s, hs.congr hlayout hsp fun _ _ _ => by rw [hram]⟩, ?_⟩
  unfold VM.getGui
  rw [hram, hwindow]
  exact h.window

/-- RAM has changed in the data and in the stack window only. -/
theorem Guarded.write {s : List MemCell} (h : Guarded data image m) (hinside : data ≤ image.length)
    (hlayout : m.proc.SameLayout m'.proc) (hs : Stacked m' s) (hwindow : m'.window = m.window)
    (hram : ∀ i, m'.ram i ≠ m.ram i → i < m.proc.firstSector.toNat + data ∨
      (m.proc.stackLimit.toNat ≤ i ∧ i < m.proc.top)) : Guarded data image m' := by
  have hl := h.loaded
  have htop := hl.top
  have hlimit := hl.stackLimit
  have hfits := hl.fits
  have hsame : ∀ i, m.proc.firstSector.toNat + data ≤ i →
      i < m.proc.firstSector.toNat + image.length ∨ m.proc.top ≤ i → m'.ram i = m.ram i := by
    intro i hi hout
    by_contra hne
    have := hram i hne
    omega
  refine ⟨hlayout.loaded hl, ?_, ⟨s, hs⟩, ?_⟩
  · rw [hlayout.firstSector]
    refine h.code.congr fun j hj hlt => hsame j hj (.inl ?_)
    rw [List.length_drop] at hlt
    omega
  · unfold VM.getGui
    rw [hsame guiFlag (by omega) (.inr (by omega)), hwindow]
    exact h.window

theorem Guarded.put {c : Cell} (h : Guarded data image m) (hinside : data ≤ image.length)
    (hc : c.InData data m.proc) (v : MemCell) : Guarded data image (put m v c) ∧ c.Outside m.proc := by
  obtain ⟨s, hs⟩ := h.stack
  have hl := h.loaded
  have hlimit := hl.stackLimit
  have houtside : c.Outside m.proc := by
    cases c with
    | register r => trivial
    | ram i =>
      have hlt := hc.2
      exact fun hin => by omega
  refine ⟨?_, houtside⟩
  cases c with
  | register r => exact h.congr ⟨rfl, rfl, rfl, rfl, rfl, rfl, rfl, rfl⟩ rfl rfl rfl
  | ram i =>
    refine h.write hinside ⟨rfl, rfl, rfl, rfl, rfl, rfl, rfl, rfl⟩ (stacked_put hs houtside) rfl fun j hj => ?_
    have hji : j = i := by
      by_contra hne
      exact hj (Function.update_of_ne hne _ _)
    rw [hji]
    exact .inl hc.2

/-! ### Operands -/

/-- What a data operand denotes. -/
theorem DataOperand.denotes {a : RawArgument} (ha : DataOperand data a) (h : Guarded data image m)
    (hc : Sectioned data image ds) : ∃ c, Denotes m a c ∧ c.InData data m.proc := by
  have hl := h.loaded
  have hfits := hl.fits
  have hflag : guiFlag = 59903 := rfl
  have hram : ramSize = 64000 := rfl
  have hregisters := hc.registers
  have hinside := hc.inside
  obtain ⟨type, value⟩ := a
  have hdirect : value.toNat < data → (value + m.proc.firstSector).toNat = m.proc.firstSector.toNat + value.toNat := by
    intro hlt
    rw [UInt16.toNat_add]
    omega
  unfold DataOperand at ha
  cases type with
  | register =>
    exact ⟨.register ⟨value.toNat - 1, register_lt ha⟩, ⟨by simp only [cellOf, registerOf, dif_pos ha]; rfl, trivial⟩,
      trivial⟩
  | indirectReg =>
    have hreg := (m.registers ⟨value.toNat - 1, register_lt ha⟩).toNat_lt
    refine ⟨.ram (m.proc.firstSector.toNat + (m.registers ⟨value.toNat - 1, register_lt ha⟩).toNat),
      ⟨by simp only [cellOf, registerOf, dif_pos ha]; rfl, ?_⟩, Nat.le_add_right _ _, by omega⟩
    show _ < ramSize
    omega
  | address | indirectMem =>
    have ha : value.toNat < data := ha
    have heq := hdirect ha
    exact ⟨.ram (value + m.proc.firstSector).toNat,
      ⟨rfl, show (value + m.proc.firstSector).toNat < ramSize by omega⟩, by omega, by omega⟩
  | number | number16 | indirectLbl | other => exact ha.elim

theorem SourceOperand.delivers {a : RawArgument} (ha : SourceOperand data a) (h : Guarded data image m)
    (hc : Sectioned data image ds) : ∃ v, Delivers m a v := by
  rcases ha with ha | ha
  · exact ⟨_, .inl ⟨ha, rfl⟩⟩
  · obtain ⟨c, hcell, -⟩ := ha.denotes h hc
    exact ⟨_, .inr ⟨c, hcell, rfl⟩⟩

/-! ### Instructions -/

/-- The only exceptions there are: those a program causes by what it computes. -/
def Mild (s : Stop) : Prop :=
  s = .throws .divideByZero ∨ s = .throws .stackOverflow ∨ s = .throws .stackUnderflow

/-- Control is passed to an instruction of the code. -/
def JumpsTo (data : Nat) (ds : List Decoded) (m m' : Machine) (arg : RawArgument) : Prop :=
  arg.value.toNat ∈ starts data ds ∧ m'.proc.pc.toNat = m.proc.firstSector.toNat + arg.value.toNat

/-- Where an instruction leaves PC. -/
def Goes (data : Nat) (ds : List Decoded) (m m' : Machine) : Instruction → Prop
  | .jmp arg => JumpsTo data ds m m' arg
  | .je arg | .jne arg | .jg arg | .jng arg => m'.proc.pc = m.proc.pc ∨ JumpsTo data ds m m' arg
  | .halt => m'.proc.pc = m.proc.pc ∧ m'.proc.running = false
  | _ => m'.proc.pc = m.proc.pc

/-- What an instruction makes of the stack. -/
def StackMove (s s' : List MemCell) : Instruction → Prop
  | .spush arg => ∃ bytes, bytes.length = stackWidth arg.type ∧ s' = bytes ++ s
  | .spop arg => stackWidth arg.type ≤ s.length ∧ s' = s.drop (stackWidth arg.type)
  | _ => s' = s

/-- How an instruction can fail: `SPUSH` on a full stack, `SPOP` with too few bytes on it. -/
def Fault (m : Machine) (i : Instruction) (e : Stop) : Prop :=
  e = .throws .divideByZero ∨
    (e = .throws .stackOverflow ∧ ∃ arg, i = .spush arg ∧
      ∀ s, Stacked m s → VMconf.programStackSizeBytes < stackWidth arg.type + s.length) ∨
    (e = .throws .stackUnderflow ∧ ∃ arg, i = .spop arg ∧ ∀ s, Stacked m s → s.length < stackWidth arg.type)

theorem Fault.mild {e : Stop} (h : Fault m i e) : Mild e := h.imp_right (Or.imp And.left And.left)

/-- Where an instruction leaves the machine. -/
structure Lands (data : Nat) (image : List MemCell) (ds : List Decoded) (i : Instruction) (m m' : Machine) :
    Prop where
  guarded : Guarded data image m'
  layout : m.proc.SameLayout m'.proc
  goes : Goes data ds m m' i
  stack : ∀ s, Stacked m s → ∃ s', Stacked m' s' ∧ StackMove s s' i

/-- PC is where it was, or where a jump has moved it. -/
theorem Lands.pc (h : Lands data image ds i m m') :
    m'.proc.pc = m.proc.pc ∨ ∃ arg, jumpOperand i = some arg ∧ JumpsTo data ds m m' arg := by
  have hgoes := h.goes
  cases i with
  | jmp arg => exact .inr ⟨arg, rfl, hgoes⟩
  | je arg | jne arg | jg arg | jng arg => exact hgoes.imp_right fun hjump => ⟨arg, rfl, hjump⟩
  | halt => exact .inl hgoes.1
  | _ => exact .inl hgoes

/-- Registers and data may change, PC and the stack do not. -/
structure InPlace (data : Nat) (image : List MemCell) (m m' : Machine) : Prop where
  guarded : Guarded data image m'
  layout : m.proc.SameLayout m'.proc
  pc : m'.proc.pc = m.proc.pc
  stack : ∀ s, Stacked m s → Stacked m' s

theorem Guarded.inPlace (h : Guarded data image m) (hproc : m'.proc = m.proc) (hram : m'.ram = m.ram)
    (hwindow : m'.window = m.window) : InPlace data image m m' where
  guarded := h.congr (by rw [hproc]; exact .refl _) (by rw [hproc]) hram hwindow
  layout := by rw [hproc]; exact .refl _
  pc := by rw [hproc]
  stack s hs := hs.congr (by rw [hproc]; exact .refl _) (by rw [hproc]) fun _ _ _ => by rw [hram]

theorem InPlace.trans {m'' : Machine} (h : InPlace data image m m') (h' : InPlace data image m' m'') :
    InPlace data image m m'' :=
  ⟨h'.guarded, h.layout.trans h'.layout, h'.pc.trans h.pc, fun s hs => h'.stack s (h.stack s hs)⟩

/-- `i` is no jump and leaves the stack alone. -/
theorem InPlace.lands (h : InPlace data image m m') (hgoes : m'.proc.pc = m.proc.pc → Goes data ds m m' i)
    (hmove : ∀ s, StackMove s s i) : Lands data image ds i m m' :=
  ⟨h.guarded, h.layout, hgoes h.pc, fun s hs => ⟨s, h.stack s hs, hmove s⟩⟩

theorem Guarded.recorded (h : Guarded data image m) (t : List Access) : Guarded data image (Exec.recorded m t) :=
  h.congr (.refl _) rfl rfl rfl

/-- A cell of the data is assigned. -/
theorem Guarded.assigned {c : Cell} (h : Guarded data image m) (hinside : data ≤ image.length)
    (hc : c.InData data m.proc) (v : MemCell) (t : List Access) :
    InPlace data image m (Exec.recorded (Exec.put m v c) t) := by
  obtain ⟨hput, houtside⟩ := h.put hinside hc v
  refine ⟨hput.recorded t, ?_, ?_, fun s hs => stacked_row (stacked_put hs houtside) _ t⟩
  · cases c <;> exact ⟨rfl, rfl, rfl, rfl, rfl, rfl, rfl, rfl⟩
  · cases c <;> rfl

/-- An operand is evaluated first. -/
theorem ensures_operand {arg : RawArgument} {f : MemCell → Exec Unit} {E : Stop → Machine → Prop}
    (h : Guarded data image m) (ha : ∃ v, Delivers m arg v)
    (hf : ∀ v m₁, InPlace data image m m₁ → Ensures (f v) (fun _ => InPlace data image m₁) E m₁) :
    Ensures (operandValue arg >>= f) (fun _ => InPlace data image m) E m := by
  obtain ⟨v, hv⟩ := ha
  obtain ⟨t, ht⟩ := operandValue_run hv
  have hkeeps : InPlace data image m (Exec.recorded m t) := h.inPlace rfl rfl rfl
  rw [ensures_bind]
  exact (ensures_of_ok ht).mpr ((hf v _ hkeeps).mono (fun _ _ => hkeeps.trans) fun _ _ he => he)

/-- `resolve_writeable_arg(..) = v`. -/
theorem ensures_assign {arg : RawArgument} {v : MemCell} {E : Stop → Machine → Prop} (h : Guarded data image m)
    (hc : Sectioned data image ds) (ha : DataOperand data arg) :
    Ensures (resolveWriteableArg arg.type arg.value >>= fun c => c.write v)
      (fun _ => InPlace data image m) E m := by
  obtain ⟨c, hcell, hdata⟩ := ha.denotes h hc
  obtain ⟨t, ht⟩ := assign_run (v := v) hcell
  exact (ensures_of_ok ht).mpr (h.assigned hc.inside hdata v t)

theorem ensures_update {op : MemCell → MemCell → MemCell} {arg : RawArgument} {v : MemCell}
    {E : Stop → Machine → Prop} (h : Guarded data image m) (hc : Sectioned data image ds)
    (ha : DataOperand data arg) :
    Ensures (updateCell op arg v) (fun _ => InPlace data image m) E m := by
  obtain ⟨c, hcell, hdata⟩ := ha.denotes h hc
  obtain ⟨t, ht⟩ := resolve_run hcell.cell
  obtain ⟨u, hu⟩ := read_run (m := Exec.recorded m t) hcell.live
  have hvalue : c.value (Exec.recorded m t) = c.value m := by cases c <;> rfl
  rw [hvalue] at hu
  obtain ⟨w, hw⟩ := write_run (m := Exec.recorded m u) (v := op (c.value m) v) hcell.live
  have hrun : updateCell op arg v m = .ok () (Exec.recorded (Exec.put (Exec.recorded m u) (op (c.value m) v) c) w) := by
    rw [updateCell, bind_ok ht, bind_ok hu]
    exact hw
  have hkeeps : InPlace data image m (Exec.recorded m u) := h.inPlace rfl rfl rfl
  exact (ensures_of_ok hrun).mpr (hkeeps.trans (hkeeps.guarded.assigned hc.inside hdata _ w))

/-- `INPUT` gets a value, whatever the mode. -/
theorem ensures_input {E : Stop → Machine → Prop} (h : Guarded data image m) :
    Ensures inputValue (fun _ => InPlace data image m) E m := by
  obtain ⟨t, ht⟩ := getGui_run (m := m)
  unfold inputValue
  rw [ensures_bind]
  refine (ensures_of_ok ht).mpr ?_
  rw [ensures_ite]
  refine ⟨fun hgui => ?_, fun _ => h.inPlace rfl rfl rfl⟩
  rw [ensures_bind, ensures_get]
  have hwindow := h.window hgui
  cases hw : (Exec.recorded m t).window with
  | uninitialised => exact absurd hw hwindow
  | null => exact h.inPlace rfl rfl rfl
  | opened => exact h.inPlace rfl rfl rfl

/-- A jump leaves everything but PC as it is. -/
structure Jumps (data : Nat) (image : List MemCell) (ds : List Decoded) (arg : RawArgument) (m m' : Machine) :
    Prop where
  guarded : Guarded data image m'
  layout : m.proc.SameLayout m'.proc
  pc : JumpsTo data ds m m' arg
  stack : ∀ s, Stacked m s → Stacked m' s

theorem Jumps.lands {arg : RawArgument} (h : Jumps data image ds arg m m')
    (hgoes : JumpsTo data ds m m' arg → Goes data ds m m' i) (hmove : ∀ s, StackMove s s i) :
    Lands data image ds i m m' :=
  ⟨h.guarded, h.layout, hgoes h.pc, fun s hs => ⟨s, h.stack s hs, hmove s⟩⟩

theorem ensures_jumpTo {arg : RawArgument} {E : Stop → Machine → Prop} (h : Guarded data image m)
    (hc : Sectioned data image ds) (ha : TargetOperand data ds arg) :
    Ensures (jumpTo arg.value) (fun _ => Jumps data image ds arg m) E m := by
  have hlayout : m.proc.SameLayout {m.proc with pc := m.proc.firstSector + arg.value} :=
    ⟨rfl, rfl, rfl, rfl, rfl, rfl, rfl, rfl⟩
  rw [jumpTo, ensures_modify]
  refine ⟨h.congr hlayout rfl rfl rfl, hlayout, ⟨ha.2, ?_⟩, fun s hs => hs.congr hlayout rfl fun _ _ _ => rfl⟩
  show (m.proc.firstSector + arg.value).toNat = _
  have hfits := h.loaded.fits
  have hflag : guiFlag = 59903 := rfl
  have hle := hc.starts_le ha.2
  rw [UInt16.toNat_add]
  omega

theorem ensures_jumpIf (condition : Bool → Bool → Bool) {arg : RawArgument} {E : Stop → Machine → Prop}
    (h : Guarded data image m) (hc : Sectioned data image ds) (ha : TargetOperand data ds arg) :
    Ensures (jumpIf condition arg) (fun _ m' => InPlace data image m m' ∨ Jumps data image ds arg m m') E m := by
  have htype : arg.type = .number ∨ arg.type = .address := .inr ha.1
  unfold jumpIf
  rw [ensures_bind, ensures_get, ensures_ite]
  refine ⟨fun _ => ?_, fun _ => .inl (h.inPlace rfl rfl rfl)⟩
  rw [wordValue, if_pos htype]
  exact (ensures_jumpTo h hc ha).mono (fun _ _ => .inr) fun _ _ he => he

theorem ensures_jmp {arg : RawArgument} {E : Stop → Machine → Prop} (h : Guarded data image m)
    (hc : Sectioned data image ds) (ha : TargetOperand data ds arg) :
    Ensures (jmp arg) (fun _ => Jumps data image ds arg m) E m := by
  unfold jmp
  rw [wordValue, if_pos ha.1]
  exact ensures_jumpTo h hc ha

theorem DataOperand.dataCell {a : RawArgument} (ha : DataOperand data a) (h : Guarded data image m)
    (hc : Sectioned data image ds) : ∃ c, Exec.dataCell m a = some c ∧ c.InData data m.proc := by
  obtain ⟨c, hcell, hdata⟩ := ha.denotes h hc
  have houtside := (h.put hc.inside hdata 0).2
  refine ⟨c, ?_, hdata⟩
  simp [Exec.dataCell, Option.filter_eq_some_iff, hcell.cell, hcell.live, houtside]

/-- Bytes are pushed, and nothing else is written. -/
theorem Guarded.pushed {s bytes : List MemCell} (h : Guarded data image m) (hinside : data ≤ image.length)
    (hs : Stacked m s) (hwidth : bytes.length ≤ 2) (hroom : bytes.length + s.length ≤ VMconf.programStackSizeBytes) :
    Guarded data image (pushOnto m bytes) ∧ Stacked (pushOnto m bytes) (bytes ++ s) := by
  have hpushed := stacked_push hs hwidth hroom
  have hwindow := hpushed.sp.1
  refine ⟨h.write hinside ⟨rfl, rfl, rfl, rfl, rfl, rfl, rfl, rfl⟩ hpushed rfl fun i hi => .inr ?_, hpushed⟩
  have hin := not_not.mp fun hout => hi (pushOnto_outside hs hwidth hout)
  exact ⟨hwindow.trans hin.1, Nat.lt_of_lt_of_le hin.2 hs.sp.2⟩

theorem ensures_spush {arg : RawArgument} (h : Guarded data image m) (hc : Sectioned data image ds)
    (ha : SourceOperand data arg) :
    Ensures (spush arg) (fun _ => Lands data image ds (.spush arg) m) (fun e _ => Fault m (.spush arg) e) m := by
  obtain ⟨s, hs⟩ := h.stack
  obtain ⟨bytes, hbytes⟩ : ∃ bytes, pushedBytes m arg = some bytes := by
    unfold pushedBytes
    split
    next => exact ⟨_, rfl⟩
    next hnumber =>
      obtain ⟨c, hcell, -⟩ := (ha.resolve_left hnumber).dataCell h hc
      rw [hcell]
      exact ⟨_, rfl⟩
  have hlength := length_pushedBytes hbytes
  have hwidth : bytes.length ≤ 2 := hlength ▸ (stackWidth_le arg.type).2
  rcases Nat.lt_or_ge VMconf.programStackSizeBytes (bytes.length + s.length) with hfull | hroom
  · refine (spush_raises hs hbytes hfull).mono (fun _ _ hfalse => hfalse.elim) fun e _ he =>
      .inr (.inl ⟨he, arg, rfl, fun s' hs' => ?_⟩)
    rwa [hs'.unique hs, ← hlength]
  · refine (spush_ok hs hbytes hroom).mono (fun _ m' hm' => ?_) fun _ _ hfalse => hfalse.elim
    obtain ⟨t, rfl⟩ := hm'
    obtain ⟨hkept, hpushed⟩ := h.pushed hc.inside hs hwidth hroom
    refine ⟨hkept.recorded t, ⟨rfl, rfl, rfl, rfl, rfl, rfl, rfl, rfl⟩, rfl, fun s' hs' => ?_⟩
    rw [hs'.unique hs]
    exact ⟨_, stacked_row hpushed _ t, bytes, hlength, rfl⟩

theorem ensures_spop {arg : RawArgument} (h : Guarded data image m) (hc : Sectioned data image ds)
    (ha : DataOperand data arg) :
    Ensures (spop arg) (fun _ => Lands data image ds (.spop arg) m) (fun e _ => Fault m (.spop arg) e) m := by
  obtain ⟨s, hs⟩ := h.stack
  obtain ⟨c, hcell, hdata⟩ := ha.dataCell h hc
  rcases Nat.lt_or_ge s.length (stackWidth arg.type) with hempty | hroom
  · refine (spop_raises hs hempty).mono (fun _ _ hfalse => hfalse.elim) fun e _ he => .inr (.inr ⟨he, arg, rfl, ?_⟩)
    exact fun s' hs' => hs'.unique hs ▸ hempty
  · refine (spop_ok hs hcell hroom).mono (fun _ m' hm' => ?_) fun _ _ hfalse => hfalse.elim
    obtain ⟨t, v, -, rfl⟩ := hm'
    obtain ⟨hput, houtside⟩ := h.put hc.inside hdata v
    have hpopped := stacked_pop (stacked_put hs (v := v) houtside) hroom
    have hkept : Guarded data image (popOff (put m v c) (stackWidth arg.type)) :=
      hput.write hc.inside ⟨rfl, rfl, rfl, rfl, rfl, rfl, rfl, rfl⟩ hpopped rfl fun i hi => absurd rfl hi
    refine ⟨hkept.recorded t, ?_, ?_, fun s' hs' => ?_⟩
    · cases c <;> exact ⟨rfl, rfl, rfl, rfl, rfl, rfl, rfl, rfl⟩
    · cases c <;> rfl
    · rw [hs'.unique hs]
      exact ⟨_, stacked_row hpopped _ t, hroom, rfl⟩

/-- **A well sorted instruction cannot go wrong.** -/
theorem ensures_perform (h : Guarded data image m) (hc : Sectioned data image ds)
    (hi : WellSorted data ds i) :
    Ensures (perform i) (fun _ => Lands data image ds i m) (fun e _ => Fault m i e) m := by
  have hkeeps : ∀ {x : Exec Unit}, Ensures x (fun _ => InPlace data image m) (fun e _ => Fault m i e) m →
      (∀ m', m'.proc.pc = m.proc.pc → Goes data ds m m' i) → (∀ s, StackMove s s i) →
      Ensures x (fun _ => Lands data image ds i m) (fun e _ => Fault m i e) m := fun hx hgoes hmove =>
    hx.mono (fun _ m' hm' => hm'.lands (hgoes m') hmove) fun _ _ he => he
  have hupdate : ∀ {op dest src}, DataOperand data dest ∧ SourceOperand data src →
      Ensures (operandValue src >>= updateCell op dest) (fun _ => InPlace data image m) (fun e _ => Fault m i e) m :=
    fun hargs => ensures_operand h (hargs.2.delivers h hc) fun _ _ hm₁ => ensures_update hm₁.guarded hc hargs.1
  have hbranch : ∀ condition {arg}, TargetOperand data ds arg →
      (∀ m', m'.proc.pc = m.proc.pc ∨ JumpsTo data ds m m' arg → Goes data ds m m' i) → (∀ s, StackMove s s i) →
      Ensures (jumpIf condition arg) (fun _ => Lands data image ds i m) (fun e _ => Fault m i e) m := by
    intro condition arg ha hgoes hmove
    refine (ensures_jumpIf condition h hc ha).mono (fun _ m' hm' => ?_) fun _ _ he => he
    rcases hm' with hm' | hm'
    · exact hm'.lands (fun hpc => hgoes m' (.inl hpc)) hmove
    · exact hm'.lands (fun hpc => hgoes m' (.inr hpc)) hmove
  cases i with
  | nop => exact (h.inPlace rfl rfl rfl).lands (i := .nop) id fun _ => rfl
  | printflush =>
    have hflushed : InPlace data image m {m with cout := m.cout ++ [0x0A]} := h.inPlace rfl rfl rfl
    exact hflushed.lands (i := .printflush) id fun _ => rfl
  | halt =>
    have hlayout : m.proc.SameLayout {m.proc with running := false} := ⟨rfl, rfl, rfl, rfl, rfl, rfl, rfl, rfl⟩
    exact ⟨h.congr hlayout rfl rfl rfl, hlayout, ⟨rfl, rfl⟩, fun s hs => ⟨s, hs.congr hlayout rfl fun _ _ _ => rfl, rfl⟩⟩
  | mov dest src =>
    refine hkeeps (ensures_operand h (hi.2.delivers h hc) fun v m₁ hm₁ => ?_) (fun _ => id) fun _ => rfl
    exact ensures_assign hm₁.guarded hc hi.1
  | add dest src => exact hkeeps (hupdate hi) (fun _ => id) fun _ => rfl
  | sub dest src => exact hkeeps (hupdate hi) (fun _ => id) fun _ => rfl
  | mul dest src => exact hkeeps (hupdate hi) (fun _ => id) fun _ => rfl
  | div dest src =>
    refine hkeeps (ensures_operand h (hi.2.delivers h hc) fun v m₁ hm₁ => ?_) (fun _ => id) fun _ => rfl
    rw [ensures_bind, ensures_raiseIf]
    exact ⟨fun _ => .inl rfl, fun _ => ensures_update hm₁.guarded hc hi.1⟩
  | cmp arg1 arg2 =>
    refine hkeeps (ensures_operand h (hi.1.delivers h hc) fun v m₁ hm₁ => ?_) (fun _ => id) fun _ => rfl
    exact ensures_operand hm₁.guarded (hi.2.delivers hm₁.guarded hc) fun w m₂ hm₂ => hm₂.guarded.inPlace rfl rfl rfl
  | print arg =>
    refine hkeeps (ensures_operand h (hi.delivers h hc) fun v m₁ hm₁ => ?_) (fun _ => id) fun _ => rfl
    exact hm₁.guarded.inPlace rfl rfl rfl
  | input arg =>
    refine hkeeps (show Ensures (inputValue >>= _) _ _ m from ?_) (fun _ => id) fun _ => rfl
    rw [ensures_bind]
    refine (ensures_input h).mono (fun v m₁ hm₁ => ?_) fun _ _ hfalse => hfalse
    exact (ensures_assign hm₁.guarded hc hi).mono (fun _ _ => hm₁.trans) fun _ _ he => he
  | spush arg => exact ensures_spush h hc hi
  | spop arg => exact ensures_spop h hc hi
  | jmp arg => exact (ensures_jmp h hc hi).mono (fun _ _ hm' => hm'.lands id fun _ => rfl) fun _ _ he => he
  | je arg => exact hbranch (fun zero _ => zero) hi (fun _ => id) fun _ => rfl
  | jne arg => exact hbranch (fun zero _ => !zero) hi (fun _ => id) fun _ => rfl
  | jg arg => exact hbranch (fun _ sign => sign) hi (fun _ => id) fun _ => rfl
  | jng arg => exact hbranch (fun _ sign => !sign) hi (fun _ => id) fun _ => rfl
  | halloc | hfree | call | ret | fbset | fbsync | unknown => exact hi.elim

/-- The cells that a data operand makes an instruction touch. -/
theorem DataOperand.operandIn {a : RawArgument} (ha : DataOperand data a) (h : Guarded data image m)
    (hc : Sectioned data image ds) : OperandIn m a := by
  obtain ⟨c, hcell, hdata⟩ := ha.denotes h hc
  have hsegment : ∀ j, c = .ram j → m.proc.Segment j := by
    rintro j rfl
    have htop := h.loaded.top
    have hinside := hc.inside
    exact ⟨hdata.1, by have := hdata.2; omega⟩
  obtain ⟨type, value⟩ := a
  have hcell := hcell.cell
  intro j hj
  cases type with
  | register => cases hj
  | address | indirectMem =>
    rw [List.mem_singleton.mp hj]
    exact hsegment _ (Option.some.inj hcell).symm
  | indirectReg =>
    obtain ⟨r, hr, rfl⟩ := Option.map_eq_some_iff.mp hcell
    have hr : registerOf value = some r := hr
    simp only [operandCells, hr, List.mem_singleton] at hj
    exact hsegment _ (by rw [hj])
  | number | number16 | indirectLbl | other => exact ha.elim

theorem SourceOperand.operandIn {a : RawArgument} (ha : SourceOperand data a) (h : Guarded data image m)
    (hc : Sectioned data image ds) : OperandIn m a := by
  rcases ha with ha | ha
  · intro j hj
    rw [operandCells, ha] at hj
    cases hj
  · exact ha.operandIn h hc

theorem Guarded.stackIn (h : Guarded data image m) : StackIn m.proc := by
  obtain ⟨s, hs⟩ := h.stack
  have hsp := hs.sp
  have hlimit := h.loaded.stackLimit
  exact ⟨by omega, hsp.2⟩

/-- A well sorted instruction touches its own. -/
theorem WellSorted.instructionIn (hi : WellSorted data ds i) (h : Guarded data image m)
    (hc : Sectioned data image ds) : InstructionIn m i := by
  cases i with
  | nop | printflush | halt => trivial
  | mov dest src | add dest src | sub dest src | mul dest src | div dest src =>
    exact ⟨hi.2.operandIn h hc, hi.1.operandIn h hc⟩
  | cmp arg1 arg2 => exact ⟨hi.1.operandIn h hc, hi.2.operandIn h hc⟩
  | print arg => exact hi.operandIn h hc
  | input arg => exact hi.operandIn h hc
  | spush arg => exact ⟨.inr (hi.operandIn h hc), h.stackIn⟩
  | spop arg => exact ⟨hi.operandIn h hc, h.stackIn⟩
  | jmp arg => exact .inl hi.1
  | je arg | jne arg | jg arg | jng arg => exact fun _ => .inl (.inr hi.1)
  | halloc | hfree | call | ret | fbset | fbsync | unknown => exact hi.elim

end Guarded

/-! ### Turns and runs -/

/-- PC is at a start, and what does not depend on it is in order. -/
structure OnTrack (data : Nat) (image : List MemCell) (ds : List Decoded) (m : Machine) : Prop
    extends Guarded data image m where
  pc : ∃ k ∈ starts data ds, m.proc.pc.toNat = m.proc.firstSector.toNat + k

section Run
variable {data : Nat} {image : List MemCell} {ds : List Decoded} {m : Machine}

/-- The instruction a turn finds. -/
theorem OnTrack.found (h : OnTrack data image ds m) (hc : Sectioned data image ds) (hgo : m.goesOn = true) :
    ∃ k d, (k, d) ∈ listing data ds ∧ m.proc.pc.toNat = m.proc.firstSector.toNat + k ∧
      current m = d.instruction ∧ k + (1 + encodedSize d.2) ∈ starts data ds ∧
      (fetched m).proc.pc.toNat = m.proc.firstSector.toNat + (k + (1 + encodedSize d.2)) := by
  have hflag : guiFlag = 59903 := rfl
  have hram : ramSize = 64000 := rfl
  have hl := h.loaded
  have hfits := hl.fits
  have hlast := hl.lastCodeSector
  have hinside := hc.inside
  have hlt := (Machine.goesOn_pc hgo).2
  have hlen : (image.drop data).length = image.length - data := List.length_drop
  obtain ⟨k, hk, hpc⟩ := h.pc
  rcases at_start hc.code hk with rfl | ⟨d, front, back, rest, hd, heq, rfl, hread, hnext⟩
  · omega
  · have hcode := h.code
    rw [heq, holds_append, Nat.add_assoc, ← hpc] at hcode
    rw [heq, List.length_append] at hlen
    have hsize := readInstruction_length hread
    have hreads := fetchInstruction_reads hcode.2 (by omega) hread
    rw [fetchInstruction_current (by omega)] at hreads
    injection hreads with hcurrent hpast
    refine ⟨_, d, hd, hpc, hcurrent, hnext, ?_⟩
    rw [fetched, hpast, past_pc_toNat (by omega), hpc, Nat.add_assoc]

/-- A turn at a well sorted instruction. -/
theorem OnTrack.performs (h : OnTrack data image ds m) (hc : Sectioned data image ds) (hgo : m.goesOn = true)
    (hsorted : WellSorted data ds (current m)) :
    (∃ e, m.next = .error (.stopped e) ∧ Fault (fetched m) (current m) e) ∨
      Confined m ∧ ∃ m', m.next = .ok m' ∧ Lands data image ds (current m) (fetched m) m' := by
  have hguarded : Guarded data image (fetched m) := h.toGuarded.congr (fetched_layout m) rfl rfl rfl
  have hperform := ensures_perform hguarded hc hsorted
  cases hrun : perform (current m) (fetched m) with
  | error e m₁ => exact .inl ⟨e, Machine.next_error_of_perform h.loaded hgo hrun, hperform.error hrun⟩
  | ok _ m₁ =>
    obtain ⟨hkept, hlayout, hgoes, hstack⟩ := hperform.ok hrun
    obtain ⟨k, -, hpc⟩ := h.pc
    refine .inr ⟨⟨by omega, hsorted.instructionIn hguarded hc⟩, _, Machine.next_ok_of_perform h.loaded hgo hrun,
      hkept.congr (.refl _) rfl rfl rfl, hlayout, hgoes, fun s hs => ?_⟩
    obtain ⟨s', hs', hmove⟩ := hstack s hs
    exact ⟨s', stacked_row hs' _ m₁.touched, hmove⟩

/-- It lands on the next instruction, or on the one it has jumped to. -/
theorem OnTrack.landed {m' : Machine} {i : Instruction} {next : Nat} (hnext : next ∈ starts data ds)
    (hfetched : (fetched m).proc.pc.toNat = m.proc.firstSector.toNat + next)
    (hlands : Lands data image ds i (fetched m) m') : OnTrack data image ds m' := by
  refine ⟨hlands.guarded, ?_⟩
  rw [((fetched_layout m).trans hlands.layout).firstSector]
  rcases hlands.pc with hstays | ⟨arg, -, htarget, hjump⟩
  · exact ⟨next, hnext, by rw [hstays, hfetched]⟩
  · exact ⟨arg.value.toNat, htarget, hjump⟩

/-- How a checked program can end. -/
def Ending.Proper : Ending → Prop
  | .halted | .unhalted => True
  | .stopped s => Mild s

/-- What a turn of a checked program is. -/
theorem OnTrack.turn (h : OnTrack data image ds m) (hc : Checked data image ds) :
    (∃ e, m.next = .error e ∧ e.Proper) ∨ m.goesOn = true ∧ Confined m ∧ ∃ m', m.next = .ok m' ∧
      OnTrack data image ds m' ∧ (m.proc.pc.toNat < m'.proc.pc.toNat ∨ ∃ k d arg, (k, d) ∈ listing data ds ∧
        jumpOperand d.instruction = some arg ∧ m.proc.pc.toNat = m.proc.firstSector.toNat + k ∧
          m'.proc.pc.toNat = m.proc.firstSector.toNat + arg.value.toNat) := by
  by_cases hgo : m.goesOn = true
  · obtain ⟨k, d, hd, hpc, hcurrent, hnext, hfetched⟩ := h.found hc.toSectioned hgo
    have hsorted : WellSorted data ds (current m) := hcurrent ▸ hc.sorts d (mem_listing hd)
    rcases h.performs hc.toSectioned hgo hsorted with ⟨e, he, hfault⟩ | ⟨hconfined, m', hm', hlands⟩
    · exact .inl ⟨_, he, hfault.mild⟩
    · refine .inr ⟨hgo, hconfined, m', hm', .landed hnext hfetched hlands, ?_⟩
      rcases hlands.pc with hstays | ⟨arg, harg, -, hjump⟩
      · left
        rw [hstays, hfetched]
        omega
      · exact .inr ⟨k, d, arg, hd, hcurrent ▸ harg, hpc, hjump⟩
  · have hstop : m.next = .error (if m.proc.running then .unhalted else .halted) := if_neg hgo
    refine .inl ⟨_, hstop, ?_⟩
    split <;> trivial

/-- Where the first instruction is. -/
theorem Sectioned.entered {vm vm' : VM} {procs : List Process} {p : Process} (hc : Sectioned data image ds)
    (hs : Session vm procs) (hload : vm.load image = .ok (p, vm')) :
    ∃ high low rest, image = high :: low :: rest ∧ (word high low).toNat ∈ starts data ds ∧
      p.pc.toNat = p.firstSector.toNat + (word high low).toNat := by
  obtain ⟨hl, -⟩ := hs.load_loaded hload
  have hfits := hl.fits
  have hflag : guiFlag = 59903 := rfl
  obtain ⟨high, low, rest, rfl, hentry⟩ := hc.entry
  have hle := hc.starts_le hentry
  refine ⟨high, low, rest, rfl, hentry, ?_⟩
  rw [(load_entry hload).2.1, UInt16.toNat_add]
  omega

/-- A checked image starts on track. -/
theorem onTrack_boot {vm vm' : VM} {procs : List Process} {p : Process} (hs : Session vm procs)
    (hload : vm.load image = .ok (p, vm')) (hc : Sectioned data image ds) (cin : Stdin) {handle : Window}
    (hhandle : handle ≠ .uninitialised) (events : List WindowEvent) :
    OnTrack data image ds (.boot vm' p cin handle events) := by
  obtain ⟨hl, -⟩ := hs.load_loaded hload
  have himage : Holds vm'.ram p.firstSector.toNat (image.take data ++ image.drop data) := by
    rw [List.take_append_drop]
    exact (load_ram hload).image
  have hcode := (holds_append.mp himage).2
  rw [List.length_take, Nat.min_eq_left hc.inside] at hcode
  obtain ⟨high, low, -, -, hentry, hpc⟩ := hc.entered hs hload
  refine ⟨⟨hl, hcode, ⟨[], stacked_load hs hload cin handle events⟩, fun hgui => ?_⟩, _, hentry, hpc⟩
  show (if vm'.getGui then handle else .uninitialised) ≠ .uninitialised
  rw [if_pos (show vm'.getGui = true from hgui)]
  exact hhandle

/-- A checked program stays on track, and touches nothing of others. -/
theorem onTrack_run {m' : Machine} (h : OnTrack data image ds m) (hc : Checked data image ds) (hclean : Clean m)
    (hrun : Machine.system.Reaches m m') : OnTrack data image ds m' ∧ Clean m' := by
  refine hrun.invariant (I := fun m => OnTrack data image ds m ∧ Clean m) (fun m₁ m₂ hm₁ hnext => ?_) ⟨h, hclean⟩
  have hnext : m₁.next = .ok m₂ := hnext
  rcases hm₁.1.turn hc with ⟨e, he, -⟩ | ⟨hgo, hconfined, m', hm', hon, -⟩
  · rw [he] at hnext
    cases hnext
  · rw [hm'] at hnext
    cases hnext
    exact ⟨hon, ((stays_step hm₁.1.loaded hgo hconfined).ok (Machine.next_ok hm').2).clean hm₁.2⟩

/-- A turn completes, or ends the run in one of the ways that are left. -/
theorem OnTrack.ends_well (h : OnTrack data image ds m) (hc : Checked data image ds) :
    (∃ m', m.next = .ok m') ∨ ∃ e, m.next = .error e ∧ e.Proper := by
  rcases h.turn hc with ⟨e, he, hproper⟩ | ⟨-, -, m', hm', -⟩
  · exact .inr ⟨e, he, hproper⟩
  · exact .inl ⟨m', hm'⟩

end Run

/-- **Checked programs do not go wrong.** In every session, from every base, with every
input and in either mode: after every number of turns of a checked program PC is at an
instruction of the image or at its end, the code is as it was loaded, SP is in its window,
nothing but the own segment and the GUI flag was touched, and the next turn completes
unless the program ends, divides by zero, or overflows or underflows its stack. -/
theorem checked_safe {vm vm' : VM} {procs : List Process} {image : List MemCell} {p : Process} {data : Nat}
    {ds : List Decoded} (hs : Session vm procs) (hload : vm.load image = .ok (p, vm'))
    (hc : Checked data image ds) (cin : Stdin) {handle : Window} (hhandle : handle ≠ .uninitialised)
    (events : List WindowEvent) {m : Machine}
    (hrun : Machine.system.Reaches (.boot vm' p cin handle events) m) :
    OnTrack data image ds m ∧ Clean m ∧ ((∃ m', m.next = .ok m') ∨ ∃ e, m.next = .error e ∧ e.Proper) := by
  have hstart := onTrack_boot hs hload hc.toSectioned cin hhandle events
  obtain ⟨hon, hclean⟩ := onTrack_run hstart hc (fun a ha => by cases ha) hrun
  exact ⟨hon, hclean, hon.ends_well hc⟩

/-- After 256 bytes of data, `MOV [A], 7` and `HALT`. -/
def storeSeven : List MemCell := [1, 0] ++ (List.replicate 254 0 ++ [0x12, 3, 1, 0, 7, 0xFF])

def storeSevenCode : List Decoded := [(0x12, [⟨.indirectReg, 1⟩, ⟨.number, 7⟩]), (0xFF, [])]

theorem storeSeven_loads : VM.fresh.load storeSeven = .ok (freshProcess storeSeven, freshVM storeSeven) :=
  load_fresh (by decide +kernel)

theorem storeSeven_checked : Checked 256 storeSeven storeSevenCode where
  registers := Nat.le_refl 256
  inside := by decide +kernel
  code := by
    rw [show storeSeven.drop 256 = [0x12, 3, 1, 0, 7, 0xFF] by decide +kernel]
    exact .cons rfl (.single rfl)
  entry := ⟨1, 0, _, rfl, by decide⟩
  sorts := by decide

def sevenMachine : Machine := .boot (freshVM storeSeven) (freshProcess storeSeven) ⟨[], false⟩ .null []

/-- The run stores the 7, and every state of it is safe. -/
theorem checked_safe_seven : (∃ m, Machine.system.Reaches sevenMachine m ∧ m.ram 0 = 7) ∧
    ∀ m, Machine.system.Reaches sevenMachine m → OnTrack 256 storeSeven storeSevenCode m ∧ Clean m ∧
      ((∃ m', m.next = .ok m') ∨ ∃ e, m.next = .error e ∧ e.Proper) :=
  ⟨⟨_, Machine.reaches_nextOr (.refl _) (by decide +kernel), by decide +kernel⟩, fun _ hrun =>
    checked_safe .fresh storeSeven_loads storeSeven_checked ⟨[], false⟩ (by decide) [] hrun⟩

/-! ### Programs without loops -/

/-- Every jump leads on. -/
def Forward (data : Nat) (ds : List Decoded) : Prop :=
  ∀ k d, (k, d) ∈ listing data ds → ∀ arg, jumpOperand d.instruction = some arg → k < arg.value.toNat

/-- **A checked program without a backward jump ends**, within as many turns as its code
has bytes, whatever its input. -/
theorem forward_ends {vm vm' : VM} {procs : List Process} {image : List MemCell} {p : Process} {data : Nat}
    {ds : List Decoded} (hs : Session vm procs) (hload : vm.load image = .ok (p, vm'))
    (hc : Checked data image ds) (hforward : Forward data ds) (cin : Stdin) {handle : Window}
    (hhandle : handle ≠ .uninitialised) (events : List WindowEvent) :
    ∃ n ≤ image.length - data, ∃ m e, Machine.system.after n (.boot vm' p cin handle events) = some m ∧
      m.next = .error e ∧ e.Proper := by
  have hstart := onTrack_boot hs hload hc.toSectioned cin hhandle events
  have hbound : ∀ m, OnTrack data image ds m → m.proc.pc.toNat ≤ m.proc.firstSector.toNat + image.length := by
    intro m h
    obtain ⟨k, hk, hpc⟩ := h.pc
    have := hc.starts_le hk
    omega
  have hturn : ∀ m, OnTrack data image ds m → (∃ e, m.next = .error e ∧ e.Proper) ∨ ∃ m', m.next = .ok m' ∧
      OnTrack data image ds m' ∧ m'.proc.firstSector.toNat + image.length - m'.proc.pc.toNat <
        m.proc.firstSector.toNat + image.length - m.proc.pc.toNat := by
    intro m h
    rcases h.turn hc with hend | ⟨-, -, m', hm', hon, hpc⟩
    · exact .inl hend
    · have hsector : m'.proc.firstSector = m.proc.firstSector := (Machine.keeps_next hm').layout.firstSector
      have hle := hbound m' hon
      refine .inr ⟨m', hm', hon, ?_⟩
      rw [hsector] at hle ⊢
      rcases hpc with hpc | ⟨k, d, arg, hd, harg, hpc, hjump⟩
      · omega
      · have := hforward k d hd arg harg
        omega
  obtain ⟨n, hn, m, hm, -, hend⟩ := System.settles (S := Machine.system) hturn hstart
  refine ⟨n, hn.trans ?_, m, hend.imp fun _ => .intro hm⟩
  obtain ⟨k, hk, hpc⟩ := hstart.pc
  have := le_starts hk
  omega

theorem forward_ends_seven : ∃ n ≤ storeSeven.length - 256, ∃ m e,
    Machine.system.after n sevenMachine = some m ∧ m.next = .error e ∧ e.Proper := by
  refine forward_ends .fresh storeSeven_loads storeSeven_checked ?_ ⟨[], false⟩ (by decide) []
  intro k d hd arg harg
  simp only [listing, storeSevenCode, List.mem_cons, List.not_mem_nil, or_false, Prod.mk.injEq] at hd
  rcases hd with ⟨-, rfl⟩ | ⟨-, rfl⟩ <;> cases harg

end CustomIsaVm
