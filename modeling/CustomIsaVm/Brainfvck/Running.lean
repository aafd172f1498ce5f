import CustomIsaVm.Brainfvck.OnMachine

/-! The code of a program, run.

`At prog s k m`: the image of `prog` is in the segment, the machine `m` shows the state
`s`, and PC is `k` bytes into the code of the next item. A turn of the loop performs an
item (`next_plain`), or the comparison and then the jump of a bracket (`next_compare`,
`next_jump`), as the items mean it wherever `Faithful` holds: a literal has one byte, and
the jump that is taken leads to an address that no wide literal has displaced. -/
namespace CustomIsaVm.Brainfvck
open Effect Exec
open Assembler (addressBytes readArgument_two word_addressBytes)

/-! ### Code in the segment -/

/-- The image of `prog` is in the segment, its code as it was assembled. -/
structure Placed (prog : List Item) (m : Machine) : Prop where
  loaded : Loaded (codeStart + size prog) m.proc
  code : Holds m.ram (m.proc.firstSector.toNat + codeStart) (prog.flatMap (Item.code (recorded prog)))
  headless : m.getGui = true → m.window = .null

/-- The image of `prog` is in the segment, the machine shows `s`, and PC is `k` bytes
into the code of the next item. -/
structure At (prog : List Item) (s : Code) (k : Nat) (m : Machine) : Prop where
  placed : Placed prog m
  running : m.proc.running = true
  shows : Shows s m
  pc : ∃ done, prog = done ++ s.rest ∧
    m.proc.pc.toNat = m.proc.firstSector.toNat + (codeStart + size done + k)

theorem OnTape.layout {m m' : Machine} (h : OnTape m m') : m.proc.SameLayout m'.proc := by
  rw [← h.proc]
  exact ⟨rfl, rfl, rfl, rfl, rfl, rfl, rfl, rfl⟩

theorem Placed.fits {prog : List Item} {m : Machine} (h : Placed prog m) :
    m.proc.firstSector.toNat + (codeStart + size prog) + 2000 ≤ guiFlag :=
  (Nat.add_assoc ..).trans_le h.loaded.fits

theorem Placed.tape_fits {prog : List Item} {m : Machine} (h : Placed prog m) :
    m.proc.firstSector.toNat + 255 < ramSize := by
  have hflag : guiFlag = 59903 := rfl
  have hram : ramSize = 64000 := rfl
  have := h.fits
  omega

/-- The code and the flag are not on the tape. -/
theorem Placed.keep {prog : List Item} {m m' : Machine} (h : Placed prog m) (k : OnTape m m') :
    Placed prog m' := by
  have hflag : guiFlag = 59903 := rfl
  have hstart : codeStart = 30002 := rfl
  have hfits := h.fits
  refine ⟨k.layout.loaded h.loaded, ?_, fun hon => ?_⟩
  · rw [k.firstSector]
    refine h.code.congr fun j hj _ => k.ram j ?_
    unfold Tape
    omega
  · rw [k.window]
    refine h.headless ?_
    have hram : m'.ram guiFlag = m.ram guiFlag := k.ram guiFlag (by unfold Tape; omega)
    rwa [VM.getGui, ← hram]

theorem onTape_past (m : Machine) (n : Nat) : OnTape m (past m n) := by
  refine ⟨rfl, rfl, fun _ _ => rfl, fun i hi => .inl ?_⟩
  simpa [Machine.Wrote, past] using hi

theorem onTape_row (m : Machine) (n : Nat) : OnTape m {m with row := n} :=
  ⟨rfl, rfl, fun _ _ => rfl, fun _ => .inl⟩

theorem Shows.goto {s : Code} {m : Machine} (h : Shows s m) (rest : List Item) : Shows (s.goto rest) m :=
  ⟨h.a, h.b, h.c, h.mem, h.cin, h.cout⟩

theorem Shows.past {s : Code} {m : Machine} (h : Shows s m) (n : Nat) : Shows s (past m n) :=
  ⟨h.a, h.b, h.c, h.mem, h.cin, h.cout⟩

theorem Shows.row {s : Code} {m : Machine} (h : Shows s m) (n : Nat) : Shows s {m with row := n} :=
  ⟨h.a, h.b, h.c, h.mem, h.cin, h.cout⟩

/-! ### A turn of the loop -/

/-- An instruction that completes. -/
theorem next_of_ensures {m m₀ : Machine} {i : Instruction} {Q : Machine → Prop} (hgo : m.goesOn = true)
    (hstep : step m = complete i m₀) (h : Ensures (perform i) (fun _ => Q) (fun _ _ => False) m₀) :
    ∃ m₁, m.next = .ok {m₁ with row := m₁.row + 1} ∧ Q m₁ := by
  obtain ⟨_, m₁, hrun, hq⟩ := ensures_returns.mp h
  refine ⟨m₁, ?_, hq⟩
  have hcomplete : complete i m₀ = .ok () {m₁ with row := m₁.row + 1} := by
    rw [complete, bind_ok hrun, modify_run]
  simp only [Machine.next, if_pos hgo, hstep, hcomplete]

/-- An instruction that does not. -/
theorem next_of_stops {m m₀ m₁ : Machine} {i : Instruction} {e : Stop} (hgo : m.goesOn = true)
    (hstep : step m = complete i m₀) (h : perform i m₀ = .error e m₁) : m.next = .error (.stopped e) := by
  have hcomplete : complete i m₀ = .error e m₁ := by rw [complete, bind_error h]
  simp only [Machine.next, if_pos hgo, hstep, hcomplete]

section Turns
variable {prog : List Item} {s : Code} {k : Nat} {m : Machine} {x : Item} {rest : List Item}
  {front bytes back : List Opcode}

/-- The bytes of the next item stand at PC. -/
theorem At.holds (h : At prog s k m) (hrest : s.rest = x :: rest)
    (hcode : x.code (recorded prog) = front ++ (bytes ++ back)) (hk : front.length = k) :
    Holds m.ram m.proc.pc.toNat bytes ∧
      m.proc.pc.toNat + bytes.length ≤ m.proc.firstSector.toNat + (codeStart + size prog) := by
  obtain ⟨done, hprog, hpc⟩ := h.pc
  rw [hrest] at hprog
  have hcodes := h.placed.code
  rw [hprog, List.flatMap_append, List.flatMap_cons, ← hprog, hcode, holds_append, holds_append, holds_append,
    holds_append, code_flatMap_length, hk] at hcodes
  have hsize : x.size = front.length + (bytes.length + back.length) := by
    rw [← code_length (recorded prog), hcode, List.length_append, List.length_append]
  have hpc' : m.proc.pc.toNat = m.proc.firstSector.toNat + codeStart + size done + k := by omega
  refine ⟨?_, ?_⟩
  · rw [hpc']
    exact hcodes.2.1.2.1
  · rw [hprog, size_append, size_cons]
    omega

/-- A turn of the loop performs the instruction whose bytes stand at PC. -/
theorem At.turn (h : At prog s k m) (hrest : s.rest = x :: rest)
    (hcode : x.code (recorded prog) = front ++ (bytes ++ back)) (hk : front.length = k) {d : Decoded}
    (hread : readInstruction bytes = some (d, [])) :
    m.goesOn = true ∧ step m = complete d.instruction (Exec.past m bytes.length) := by
  have hflag : guiFlag = 59903 := rfl
  have hram : ramSize = 64000 := rfl
  obtain ⟨hholds, hend⟩ := h.holds hrest hcode hk
  have hfits := h.placed.fits
  have hlength := readInstruction_length hread
  rw [List.length_nil, Nat.add_zero] at hlength
  refine ⟨?_, ?_⟩
  · have hlast := h.placed.loaded.lastCodeSector
    rw [Machine.goesOn, h.running, Bool.true_and, decide_eq_true_eq, UInt16.lt_iff_toNat_lt]
    omega
  · rw [step_reads hholds (by omega) hread, hlength]

/-- Once the instruction has done its work, the machine is `k'` bytes into the code of
what is left. -/
theorem At.after (h : At prog s k m) {s' : Code} {m₁ : Machine} {n k' : Nat}
    (hdoes : Does s' (Exec.past m n) m₁) {done : List Item} (hprog : prog = done ++ s'.rest)
    (hpc : m.proc.pc.toNat + n = m.proc.firstSector.toNat + (codeStart + size done + k'))
    (hend : m.proc.pc.toNat + n ≤ m.proc.firstSector.toNat + (codeStart + size prog)) :
    OnTape m {m₁ with row := m₁.row + 1} ∧ At prog s' k' {m₁ with row := m₁.row + 1} := by
  have hflag : guiFlag = 59903 := rfl
  have hfits := h.placed.fits
  have hon := ((onTape_past m n).trans hdoes.onTape).trans (onTape_row m₁ (m₁.row + 1))
  refine ⟨hon, h.placed.keep hon, ?_, hdoes.shows.row _, done, hprog, ?_⟩
  · show m₁.proc.running = true
    rw [hdoes.proc]
    exact h.running
  · show m₁.proc.pc.toNat = m₁.proc.firstSector.toNat + _
    rw [hdoes.proc, past_pc_toNat (by omega), hpc]
    rfl

end Turns

/-! ### Reading an item -/

/-- The literal, if there is one, is of one byte. -/
def Item.Byte : Item → Prop
  | op _ _ (.num v) => v ≤ 255
  | _ => True

/-- The instruction of an item that is no bracket. -/
def Item.instruction : Item → Instruction
  | op o d src => o.instruction d.operand src.operand
  | print => .print (Place.operand .cell)
  | input => .input (Place.operand .cell)
  | halt | loopStart _ | loopEnd _ => .halt

theorem readArgument_place (p : Place) (more : List Opcode) :
    readArgument (p.code ++ more) = some (p.operand, more) := by
  cases p <;> rfl

theorem readArguments_op {d : Place} {code : List Opcode} {a : RawArgument}
    (h : readArgument code = some (a, [])) : readArguments 2 (d.code ++ code) = some ([d.operand, a], []) := by
  simp only [readArguments, readArgument_place, h, Option.bind_eq_bind, Option.bind_some, Option.pure_def]

/-- The instruction read from the code of an operation. -/
theorem read_op {o : Operation} {d : Place} {code : List Opcode} {a : RawArgument}
    (h : readArgument code = some (a, [])) : ∃ e : Decoded,
      readInstruction (o.opcode :: (d.code ++ code)) = some (e, []) ∧ e.instruction = o.instruction d.operand a := by
  have harity : arity o.opcode = 2 := by cases o <;> rfl
  refine ⟨(o.opcode, [d.operand, a]), ?_, by cases o <;> rfl⟩
  rw [readInstruction, harity, readArguments_op h]
  rfl

theorem read_item {x : Item} (hx : x.isBracket = false) (hbyte : x.Byte) (target : Item → MemAddr) :
    ∃ e : Decoded, readInstruction (x.code target) = some (e, []) ∧ e.instruction = x.instruction := by
  cases x with
  | op o d src =>
    refine read_op ?_
    cases src with
    | place p =>
      have := readArgument_place p []
      rwa [List.append_nil] at this
    | num v =>
      rw [Source.code, if_neg (Int.not_lt.mpr hbyte)]
      rfl
  | print => exact ⟨(0x01, [⟨.indirectReg, 1⟩]), rfl, rfl⟩
  | input => exact ⟨(0x21, [⟨.indirectReg, 1⟩]), rfl, rfl⟩
  | halt => exact ⟨(0xFF, []), rfl, rfl⟩
  | loopStart id => cases hx
  | loopEnd id => cases hx

/-- Whether a bracket jumps, the cell being `v`. -/
def Item.jumps : Item → MemCell → Bool
  | loopStart _, v => v == 0
  | loopEnd _, v => v != 0
  | _, _ => false

/-- The code of a bracket is a comparison and a jump to its partner. -/
theorem read_bracket {x : Item} (hx : x.isBracket = true) (target : Item → MemAddr) :
    ∃ (bytes : List Opcode) (e : Decoded) (condition : Bool → Bool → Bool),
      x.code target = [0xB2, 3, 1, 0, 0] ++ bytes ∧ bytes.length = 4 ∧ readInstruction bytes = some (e, []) ∧
      perform e.instruction = jumpIf condition ⟨.address, target x.partner⟩ ∧
      ∀ v sign, condition (v == 0) sign = x.jumps v := by
  have hread : ∀ addr : MemAddr, readArgument (2 :: addressBytes addr) = some (⟨.address, addr⟩, []) := by
    intro addr
    have := readArgument_two .address (highByte addr.toNat) (lowByte addr.toNat) rfl
    rwa [word_addressBytes] at this
  have hjump : ∀ (opcode : Opcode) addr, arity opcode = 1 →
      readInstruction (opcode :: 2 :: addressBytes addr) = some ((opcode, [⟨.address, addr⟩]), []) := by
    intro opcode addr harity
    rw [readInstruction, harity]
    simp only [readArguments, hread, Option.bind_eq_bind, Option.bind_some, Option.pure_def]
    rfl
  cases x with
  | loopStart id => exact ⟨_, _, fun zero _ => zero, rfl, rfl, hjump 0x41 _ rfl, rfl, fun _ _ => rfl⟩
  | loopEnd id => exact ⟨_, _, fun zero _ => !zero, rfl, rfl, hjump 0x51 _ rfl, rfl, fun _ _ => rfl⟩
  | op => cases hx
  | print => cases hx
  | input => cases hx
  | halt => cases hx

/-! ### One item -/

/-- The bracket that the next item jumps to. -/
def Code.target (s : Code) : Option Item :=
  s.rest.head?.bind fun x => if x.jumps (s.get .cell) then some x.partner else none

/-- The label of `x` has the address where its code stands: no literal before it is wide. -/
def Lands (prog : List Item) (x : Item) : Prop := counted (before prog x) = size (before prog x)

/-- The machine does the next item as it is meant. -/
structure Code.Faithful (prog : List Item) (s : Code) : Prop where
  byte : ∀ x ∈ s.rest.head?, x.Byte
  lands : ∀ x ∈ s.target, Lands prog x

theorem Code.next_bracket {p : List Item} {s : Code} {x : Item} {rest : List Item} (h : s.rest = x :: rest)
    (hx : x.isBracket = true) : (Code.system p).next s =
      .ok (s.goto (if x.jumps (s.get .cell) then seek x.partner p else rest)) := by
  cases x with
  | loopStart id =>
    rw [next_loopStart h]
    simp only [Item.jumps, Item.partner, beq_iff_eq]
  | loopEnd id =>
    rw [next_loopEnd h]
    by_cases hzero : s.get .cell = 0 <;> simp [Item.jumps, Item.partner, hzero]
  | op => cases hx
  | print => cases hx
  | input => cases hx
  | halt => cases hx

/-- What an item that is neither a bracket nor `HALT` does to the state, its instruction
does to the machine. -/
theorem does_item (prog : List Item) {s : Code} {m : Machine} {x : Item} {rest : List Item} (h : Shows s m)
    (hfits : m.proc.firstSector.toNat + 255 < ramSize) (hgui : m.getGui = true → m.window = .null)
    (hrest : s.rest = x :: rest) (hx : x.isBracket = false) (hhalt : x ≠ .halt) :
    ∃ s' : Code, (Code.system prog).next s = .ok (s'.goto rest) ∧
      Ensures (perform x.instruction) (fun _ => Does s' m) (fun _ _ => False) m := by
  cases x with
  | op o d src => exact ⟨_, Code.next_op hrest, perform_op h hfits o d src⟩
  | print => exact ⟨_, Code.next_print hrest, perform_print h hfits⟩
  | input => exact ⟨_, Code.next_input hrest, perform_input h hfits hgui⟩
  | halt => exact absurd rfl hhalt
  | loopStart id => cases hx
  | loopEnd id => cases hx

section Items
variable {prog : List Item} {s : Code} {m : Machine} {x : Item} {rest : List Item}

/-- **An instruction.** -/
theorem At.next_plain (h : At prog s 0 m) (hrest : s.rest = x :: rest) (hx : x.isBracket = false)
    (hhalt : x ≠ .halt) (hbyte : x.Byte) : ∃ s' m', (Code.system prog).next s = .ok s' ∧ s'.rest = rest ∧
      m.next = .ok m' ∧ OnTape m m' ∧ At prog s' 0 m' := by
  have hcode : x.code (recorded prog) = [] ++ (x.code (recorded prog) ++ []) := by simp
  obtain ⟨e, hread, he⟩ := read_item hx hbyte (recorded prog)
  obtain ⟨hgo, hstep⟩ := h.turn hrest hcode rfl hread
  obtain ⟨-, hend⟩ := h.holds hrest hcode rfl
  rw [he] at hstep
  rw [code_length] at hstep hend
  obtain ⟨s', hs', hperform⟩ := does_item prog (h.shows.past x.size) h.placed.tape_fits
    h.placed.headless hrest hx hhalt
  obtain ⟨m₁, hm₁, hdoes⟩ := next_of_ensures hgo hstep hperform
  obtain ⟨done, hprog, hpc⟩ := h.pc
  have hdoes' : Does (s'.goto rest) (Exec.past m x.size) m₁ := ⟨hdoes.shows.goto rest, hdoes.onTape, hdoes.proc⟩
  have hprog' : prog = (done ++ [x]) ++ rest := by rw [hprog, hrest, List.append_assoc]; rfl
  have hpc' : m.proc.pc.toNat + x.size = m.proc.firstSector.toNat + (codeStart + size (done ++ [x]) + 0) := by
    rw [hpc, size_append, size_cons, size_nil]
    omega
  obtain ⟨hon, hat⟩ := h.after hdoes' hprog' hpc' hend
  exact ⟨_, _, hs', rfl, hm₁, hon, hat⟩

/-- A literal of two bytes is no operand value. -/
theorem At.next_wide (h : At prog s 0 m) {o : Operation} {d : Place} {v : Int}
    (hrest : s.rest = .op o d (.num v) :: rest) (hwide : 255 < v) :
    m.next = .error (.stopped (.throws (.unknownType .number16))) := by
  have hcode : (Item.op o d (.num v)).code (recorded prog) =
      [] ++ (o.opcode :: (d.code ++ [6, UInt8.ofInt (v / 256), UInt8.ofInt v]) ++ []) := by
    rw [Item.code, Source.code, if_pos hwide, List.append_nil, List.nil_append]
  obtain ⟨e, hread, he⟩ := read_op (o := o) (d := d)
    (readArgument_two .number16 (UInt8.ofInt (v / 256)) (UInt8.ofInt v) rfl)
  obtain ⟨hgo, hstep⟩ := h.turn hrest hcode rfl hread
  rw [he] at hstep
  have hvalue : ∀ (w : MemAddr) (m : Machine),
      operandValue ⟨.number16, w⟩ m = .error (.throws (.unknownType .number16)) m := fun _ _ => rfl
  cases o with
  | mov => exact next_of_stops hgo hstep (bind_error (hvalue _ _))
  | add => exact next_of_stops hgo hstep (bind_error (hvalue _ _))
  | sub => exact next_of_stops hgo hstep (bind_error (hvalue _ _))
  | mul => exact next_of_stops hgo hstep (bind_error (hvalue _ _))

/-- `HALT` stops the process. -/
theorem At.next_halt (h : At prog s 0 m) (hrest : s.rest = .halt :: rest) :
    ∃ m', m.next = .ok m' ∧ OnTape m m' ∧ m'.proc.running = false ∧ Shows s m' ∧
      m'.proc.pc.toNat = m.proc.pc.toNat + 1 := by
  have hflag : guiFlag = 59903 := rfl
  have hcode : Item.halt.code (recorded prog) = [] ++ ([0xFF] ++ []) := rfl
  obtain ⟨hgo, hstep⟩ := h.turn (d := (0xFF, [])) hrest hcode rfl rfl
  obtain ⟨-, hend⟩ := h.holds hrest hcode rfl
  have hfits := h.placed.fits
  have hshows := h.shows
  have hperform : Ensures (perform .halt) (fun _ m₁ => OnTape (Exec.past m 1) m₁ ∧ m₁.proc.running = false ∧
      Shows s m₁ ∧ m₁.proc.pc = (Exec.past m 1).proc.pc) (fun _ _ => False) (Exec.past m 1) :=
    ⟨⟨rfl, rfl, fun _ _ => rfl, fun _ => .inl⟩, rfl,
      ⟨hshows.a, hshows.b, hshows.c, hshows.mem, hshows.cin, hshows.cout⟩, rfl⟩
  obtain ⟨m₁, hm₁, hon, hrunning, hshows₁, hpc⟩ := next_of_ensures hgo hstep hperform
  refine ⟨_, hm₁, ((onTape_past m 1).trans hon).trans (onTape_row m₁ _), hrunning, hshows₁.row _, ?_⟩
  show m₁.proc.pc.toNat = _
  rw [hpc, past_pc_toNat (by rw [List.length_singleton] at hend; omega)]

theorem next_stopped (h : m.proc.running = false) : (Machine.system).next m = .error .halted := by
  have hgo : m.goesOn = false := by rw [Machine.goesOn, h, Bool.false_and]
  show m.next = _
  simp only [Machine.next, hgo, h, Bool.false_eq_true, if_false]

/-- Behind the last item the loop is over. -/
theorem At.next_nil (h : At prog s 0 m) (hrest : s.rest = []) : m.next = .error .unhalted := by
  obtain ⟨done, hprog, hpc⟩ := h.pc
  rw [hrest, List.append_nil] at hprog
  subst hprog
  have hlast := h.placed.loaded.lastCodeSector
  have hgo : m.goesOn = false := by
    rw [Machine.goesOn, h.running, Bool.true_and, decide_eq_false_iff_not, UInt16.lt_iff_toNat_lt]
    omega
  simp only [Machine.next, hgo, h.running, Bool.false_eq_true, if_false, if_true]

/-- The comparison of a bracket leaves the jump to do. -/
theorem At.next_compare (h : At prog s 0 m) (hrest : s.rest = x :: rest) (hx : x.isBracket = true) :
    ∃ m', m.next = .ok m' ∧ OnTape m m' ∧ At prog s 5 m' ∧ m'.zero = (s.get .cell == 0) := by
  obtain ⟨bytes, e, condition, hcode, -⟩ := read_bracket hx (recorded prog)
  replace hcode : x.code (recorded prog) = [] ++ ([0xB2, 3, 1, 0, 0] ++ bytes) := hcode
  obtain ⟨hgo, hstep⟩ := h.turn (d := (0xB2, [⟨.indirectReg, 1⟩, ⟨.number, 0⟩])) hrest hcode rfl rfl
  obtain ⟨-, hend⟩ := h.holds hrest hcode rfl
  obtain ⟨m₁, hm₁, hdoes, hzero⟩ := next_of_ensures hgo hstep (perform_cmp (h.shows.past 5) h.placed.tape_fits)
  obtain ⟨done, hprog, hpc⟩ := h.pc
  have hpc' : m.proc.pc.toNat + 5 = m.proc.firstSector.toNat + (codeStart + size done + 5) := by omega
  obtain ⟨hon, hat⟩ := h.after hdoes hprog hpc' hend
  exact ⟨_, hm₁, hon, hat, hzero⟩

/-- **The jump of a bracket**, where it lands at the code of the other bracket. -/
theorem At.next_jump (h : At prog s 5 m) (hzero : m.zero = (s.get .cell == 0)) (hrest : s.rest = x :: rest)
    (hx : x.isBracket = true) (hlands : ∀ y ∈ s.target, Lands prog y) :
    ∃ s' m', (Code.system prog).next s = .ok s' ∧ m.next = .ok m' ∧ OnTape m m' ∧ At prog s' 0 m' := by
  have hflag : guiFlag = 59903 := rfl
  obtain ⟨bytes, e, condition, hcode, hlength, hread, hperform, hcondition⟩ := read_bracket hx (recorded prog)
  replace hcode : x.code (recorded prog) = [0xB2, 3, 1, 0, 0] ++ (bytes ++ []) := by rw [hcode, List.append_nil]
  obtain ⟨hgo, hstep⟩ := h.turn hrest hcode rfl hread
  obtain ⟨-, hend⟩ := h.holds hrest hcode rfl
  obtain ⟨done, hprog, hpc⟩ := h.pc
  have hfits := h.placed.fits
  have hsize : x.size = 9 := by
    rw [← code_length (recorded prog), hcode, List.length_append, List.length_append, hlength]
    rfl
  rw [hlength] at hstep hend
  have hflags : condition (Exec.past m 4).zero (Exec.past m 4).sign = x.jumps (s.get .cell) := by
    rw [← hcondition _ (Exec.past m 4).sign, ← hzero]
    rfl
  have hrun := perform_jump condition (recorded prog x.partner) (Exec.past m 4)
  rw [hflags, ← hperform] at hrun
  have hnext := Code.next_bracket (p := prog) hrest hx
  cases htaken : x.jumps (s.get .cell) with
  | false =>
    rw [htaken] at hrun hnext
    obtain ⟨m₁, hm₁, hdoes⟩ := next_of_ensures (Q := Does (s.goto rest) (Exec.past m 4)) hgo hstep
      ((ensures_of_ok hrun).mpr (.refl ((h.shows.past 4).goto rest)))
    have hpc' : m.proc.pc.toNat + 4 = m.proc.firstSector.toNat + (codeStart + size (done ++ [x]) + 0) := by
      rw [size_append, size_cons, size_nil]
      omega
    obtain ⟨hon, hat⟩ := h.after hdoes (by rw [hprog, hrest, List.append_assoc]; rfl) hpc' hend
    exact ⟨_, _, hnext, hm₁, hon, hat⟩
  | true =>
    rw [htaken, if_pos rfl] at hrun hnext
    have htarget : Lands prog x.partner := hlands _ (by rw [Code.target, hrest]; simp [htaken])
    have hsplit : prog = before prog x.partner ++ seek x.partner prog := List.takeWhile_append_dropWhile.symm
    have hbefore : size (before prog x.partner) ≤ size prog := by
      have := congrArg size hsplit
      rw [size_append] at this
      omega
    obtain ⟨m₁, hm₁, rfl⟩ := next_of_ensures (Q := (_ = ·)) hgo hstep ((ensures_of_ok hrun).mpr rfl)
    have hpc' : (m.proc.firstSector + recorded prog x.partner).toNat =
        m.proc.firstSector.toNat + (codeStart + size (before prog x.partner) + 0) := by
      rw [recorded, htarget, UInt16.toNat_add, UInt16.toNat_ofNat']
      omega
    refine ⟨_, _, hnext, hm₁, ?_⟩
    suffices hon : OnTape m _ from
      ⟨hon, h.placed.keep hon, h.running,
        ⟨h.shows.a, h.shows.b, h.shows.c, h.shows.mem, h.shows.cin, h.shows.cout⟩, _, hsplit, hpc'⟩
    exact (onTape_past m 4).trans ⟨rfl, rfl, fun _ _ => rfl, fun _ => .inl⟩

end Items

/-! ### Runs -/

/-- **An item.** One turn of the machine, or the two of a bracket. -/
theorem At.next {prog : List Item} {s s' : Code} {m : Machine} (h : At prog s 0 m) (hs : s.Faithful prog)
    (hnext : (Code.system prog).next s = .ok s') :
    ∃ m', Machine.system.Progress m m' ∧ OnTape m m' ∧ At prog s' 0 m' := by
  cases hrest : s.rest with
  | nil => cases (Code.next_nil hrest).symm.trans hnext
  | cons x rest =>
    cases hx : x.isBracket with
    | true =>
      obtain ⟨m₁, hm₁, hon, hat, hzero⟩ := h.next_compare hrest hx
      obtain ⟨s₁, m', hs₁, hm', hon', hat'⟩ := hat.next_jump hzero hrest hx hs.lands
      cases hs₁.symm.trans hnext
      exact ⟨m', (System.Progress.single hm₁).trans (.single hm'), hon.trans hon', hat'⟩
    | false =>
      by_cases hhalt : x = .halt
      · subst hhalt
        cases (Code.next_halt hrest).symm.trans hnext
      · obtain ⟨s₁, m', hs₁, -, hm', hon, hat⟩ := h.next_plain hrest hx hhalt (hs.byte x (by rw [hrest]; rfl))
        cases hs₁.symm.trans hnext
        exact ⟨m', .single hm', hon, hat⟩

/-- Any number of items. -/
theorem At.reaches {prog : List Item} {s t : Code} {m : Machine} (h : At prog s 0 m)
    (hst : (Code.system prog).Reaches s t)
    (hfaithful : ∀ u, (Code.system prog).Reaches s u → u.Faithful prog) :
    ∃ m', Machine.system.Reaches m m' ∧ OnTape m m' ∧ At prog t 0 m' := by
  obtain ⟨n, hn⟩ := hst
  induction n generalizing s m with
  | zero =>
    cases hn
    exact ⟨m, .refl m, .refl m, h⟩
  | succ n ih =>
    cases hnext : (Code.system prog).next s with
    | error e => rw [System.after_succ_error _ hnext] at hn; cases hn
    | ok u =>
      rw [System.after_succ_ok _ hnext] at hn
      obtain ⟨m₁, hm₁, hon, hat⟩ := h.next (hfaithful s (.refl s)) hnext
      obtain ⟨m', hm', hon', hat'⟩ := ih hat (fun v hv => hfaithful v ((System.Reaches.single hnext).trans hv)) hn
      exact ⟨m', hm₁.reaches.trans hm', hon.trans hon', hat'⟩

/-- **The machine runs the items**, as long as it does each of them as it is meant. -/
def machine_simulation (prog : List Item) : System.Simulation (Code.system prog) Machine.system where
  Rel s m := At prog s 0 m ∧ ∀ t, (Code.system prog).Reaches s t → t.Faithful prog
  output h := h.1.shows.cout.symm
  advance := by
    rintro s m ⟨h, hfaithful⟩
    cases hnext : (Code.system prog).next s with
    | ok s' =>
      obtain ⟨m', hm', -, hat⟩ := h.next (hfaithful s (.refl s)) hnext
      exact .inr ⟨s', m', .single hnext, hm', hat, fun t ht =>
        hfaithful t ((System.Reaches.single hnext).trans ht)⟩
    | error e =>
      refine .inl ⟨e, s, ?_⟩
      rcases Code.next_error hnext with ⟨rfl, hrest⟩ | ⟨rfl, rest, hrest⟩
      · exact ⟨m, ⟨.refl s, hnext⟩, ⟨.refl m, h.next_nil hrest⟩, h.shows.cout.symm⟩
      · obtain ⟨m', hm', -, hstopped, hshows, -⟩ := h.next_halt hrest
        exact ⟨m', ⟨.refl s, hnext⟩, ⟨.single hm', next_stopped hstopped⟩, hshows.cout.symm⟩

/-- The tape as the image has it: the entry point, and zeros. -/
def tape (x : MemCell) : MemCell := if x = 0 then 0x75 else if x = 1 then 0x32 else 0

/-- The image, once loaded, is at its first item. -/
theorem at_load {prog : List Item} {vm vm' : VM} {procs : List Process} {p : Process} (hs : Session vm procs)
    (hload : vm.load (image prog) = .ok (p, vm')) (cin : Stdin) :
    ∃ s, At prog s 0 (Machine.headless vm' p cin) ∧ s.rest = prog ∧ s.mem = tape ∧ s.cin = cin ∧ s.cout = [] := by
  have hflag : guiFlag = 59903 := rfl
  have hstart : codeStart = 30002 := rfl
  have himage := (load_ram hload).image
  have hloaded := (hs.load_loaded hload).1
  rw [image_length] at hloaded
  have hfits : p.firstSector.toNat + (codeStart + size prog) + 2000 ≤ guiFlag :=
    (Nat.add_assoc ..).trans_le hloaded.fits
  obtain ⟨hrunning, hpc, -⟩ := load_entry hload
  rw [image, holds_append, holds_append, List.length_replicate] at himage
  obtain ⟨⟨h0, h1, -⟩, hzeros, hcode⟩ := himage
  have hbehind : p.firstSector.toNat + [(0x75 : Opcode), 0x32].length + 30000 =
      p.firstSector.toNat + codeStart := by
    rw [List.length_cons, List.length_singleton]
    omega
  rw [hbehind] at hcode
  have hmem : ∀ x : MemCell, vm'.ram (p.firstSector.toNat + x.toNat) = tape x := by
    intro x
    have hx := x.toNat_lt
    unfold tape
    by_cases hx0 : x = 0
    · rw [if_pos hx0, hx0]
      exact h0
    · by_cases hx1 : x = 1
      · rw [if_neg hx0, if_pos hx1, hx1]
        exact h1
      · have hne0 : x.toNat ≠ 0 := fun h => hx0 (UInt8.toNat_inj.mp h)
        have hne1 : x.toNat ≠ 1 := fun h => hx1 (UInt8.toNat_inj.mp h)
        have := holds_iff.mp hzeros (x.toNat - 2) (by rw [List.length_replicate]; omega)
        rw [if_neg hx0, if_neg hx1]
        simp only [List.length_cons, List.length_nil, List.getElem_replicate] at this
        rwa [show p.firstSector.toNat + (0 + 1 + 1) + (x.toNat - 2) = p.firstSector.toNat + x.toNat by omega] at this
  refine ⟨⟨vm'.registers 0, vm'.registers 1, vm'.registers 2, tape, cin, [], prog⟩,
    ⟨⟨hloaded, hcode, fun hon => if_pos hon⟩, hrunning, ⟨rfl, rfl, rfl, hmem, rfl, rfl⟩, [], rfl, ?_⟩,
    rfl, rfl, rfl, rfl⟩
  show p.pc.toNat = p.firstSector.toNat + _
  have hword : (word 0x75 0x32).toNat = 30002 := rfl
  rw [hpc, UInt16.toNat_add, hword, size_nil]
  omega

/-! ### A run on course -/

/-- The machine does every item that the run comes to as it is meant. -/
def OnCourse (prog : List Item) (m₀ : Machine) : Prop :=
  ∀ m, Machine.system.Reaches m₀ m → ∀ s, At prog s 0 m → s.Faithful prog

theorem OnCourse.all_faithful {prog : List Item} {m : Machine} (hcourse : OnCourse prog m) {s : Code}
    (h : At prog s 0 m) : ∀ t, (Code.system prog).Reaches s t → t.Faithful prog := by
  rintro t ⟨n, hn⟩
  induction n generalizing s m with
  | zero =>
    cases hn
    exact hcourse m (.refl m) _ h
  | succ n ih =>
    cases hnext : (Code.system prog).next s with
    | error e => rw [System.after_succ_error _ hnext] at hn; cases hn
    | ok u =>
      rw [System.after_succ_ok _ hnext] at hn
      obtain ⟨m', hm', -, hat⟩ := h.next (hcourse m (.refl m) s h) hnext
      exact ih (fun v hv => hcourse v (hm'.reaches.trans hv)) hat hn

/-- **A loaded image on course runs as its items.** -/
theorem OnCourse.runs {prog : List Item} {vm vm' : VM} {procs : List Process} {p : Process} {cin : Stdin}
    (hcourse : OnCourse prog (.headless vm' p cin)) (hs : Session vm procs)
    (hload : vm.load (image prog) = .ok (p, vm')) :
    ∃ s, At prog s 0 (.headless vm' p cin) ∧ s.rest = prog ∧ s.mem = tape ∧ s.cin = cin ∧ s.cout = [] ∧
      (∀ u, (Code.system prog).Reaches s u → u.Faithful prog) ∧
      System.SameBehaviour (Code.system prog) s Machine.system (.headless vm' p cin) := by
  obtain ⟨s, hat, hrest, hmem, hcin, hcout⟩ := at_load hs hload cin
  have hfaithful := hcourse.all_faithful hat
  exact ⟨s, hat, hrest, hmem, hcin, hcout, hfaithful, (machine_simulation prog).same ⟨hat, hfaithful⟩⟩

end CustomIsaVm.Brainfvck
