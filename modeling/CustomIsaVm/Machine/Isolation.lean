import CustomIsaVm.Machine.HeapRun

/-! What a process may touch.

`Process.Allows` is the promise: fetches, reads and writes in the own segment, the
framebuffer, and the GUI flag. Nothing in `exec` checks it, so it is kept only where
the program itself takes care. `Confined` is that care, for one turn of the loop: the
operands it uses denote cells of the segment, SP is in it, and the heap headers lead
through it. A run of confined turns touches what it may and nothing else, and leaves
the other processes as they are (`isolation`). -/
namespace CustomIsaVm

open Effect Exec

/-! ### What is allowed -/

instance (p : Process) (i : Nat) : Decidable (p.Segment i) := by
  unfold Process.Segment
  infer_instance

def Process.Allows (p : Process) : Access → Prop
  | .fetch i | .load i | .store i => p.Segment i
  | .flag i => i = guiFlag
  | .pixel i => framebufferStart ≤ i ∧ i < ramSize

theorem Process.SameLayout.allows {p q : Process} (h : p.SameLayout q) (a : Access) :
    q.Allows a ↔ p.Allows a := by
  cases a with
  | fetch i => exact h.segment i
  | load i => exact h.segment i
  | store i => exact h.segment i
  | flag i => exact Iff.rfl
  | pixel i => exact Iff.rfl

instance (p : Process) : (a : Access) → Decidable (p.Allows a)
  | .fetch i | .load i | .store i => inferInstanceAs (Decidable (p.Segment i))
  | .flag i => inferInstanceAs (Decidable (i = guiFlag))
  | .pixel i => inferInstanceAs (Decidable (framebufferStart ≤ i ∧ i < ramSize))

/-- What is allowed is in RAM. -/
theorem Loaded.allows_lt {p : Process} {size : Nat} (hl : Loaded size p) {a : Access}
    (h : p.Allows a) : a.address < ramSize := by
  have hram : ramSize = 64000 := rfl
  have hflag : guiFlag = 59903 := rfl
  have htop := hl.top
  have hfits := hl.fits
  have hsegment : ∀ i, p.Segment i → i < ramSize := fun i hi => by
    have := hi.2
    omega
  cases a with
  | fetch i => exact hsegment i h
  | load i => exact hsegment i h
  | store i => exact hsegment i h
  | flag i =>
    have h : i = guiFlag := h
    show i < ramSize
    omega
  | pixel i => exact h.2

/-- On the way to `m'` only what is allowed was touched. -/
structure Stays (m m' : Machine) : Prop where
  layout : m.proc.SameLayout m'.proc
  touched : ∀ a ∈ m'.touched, a ∈ m.touched ∨ m.proc.Allows a

theorem Stays.refl (m : Machine) : Stays m m := ⟨.refl _, fun _ => .inl⟩

theorem Stays.trans {m m' m'' : Machine} (h : Stays m m') (k : Stays m' m'') : Stays m m'' := by
  refine ⟨h.layout.trans k.layout, fun a ha => ?_⟩
  rcases k.touched a ha with ha | ha
  · exact h.touched a ha
  · exact .inr ((h.layout.allows a).mp ha)

instance : Std.Refl Stays := ⟨Stays.refl⟩

instance : IsTrans Machine Stays := ⟨fun _ _ _ => Stays.trans⟩

variable {m : Machine}

/-- One access. -/
theorem stays_record {a : Access} (h : m.proc.Allows a) (ram : Nat → MemCell) :
    Stays m {m with ram := ram, touched := a :: m.touched} := by
  refine ⟨.refl _, fun b hb => ?_⟩
  rcases List.mem_cons.mp hb with rfl | hb
  · exact .inr h
  · exact .inl hb

theorem stays_load {access : Nat → Access} {i : Nat} (h : m.proc.Allows (access i)) :
    RespectsAt Stays (load access i) m := by
  rw [RespectsAt, ensures_load]
  exact ⟨fun _ => stays_record h m.ram, fun _ => stays_record h m.ram⟩

theorem stays_store {access : Nat → Access} {i : Nat} {v : MemCell} (h : m.proc.Allows (access i)) :
    RespectsAt Stays (store access i v) m := by
  rw [RespectsAt, ensures_store]
  exact ⟨fun _ => stays_record h _, fun _ => stays_record h m.ram⟩

/-- An update of PC, SP and the running flag only. -/
theorem stays_proc {f : Machine → Process} (h : m.proc.SameLayout (f m)) :
    RespectsAt Stays (modify (fun m => {m with proc := f m}) : Exec Unit) m :=
  ⟨h, fun _ => .inl⟩

/-- An update of what neither the layout nor the record depends on. -/
theorem stays_modify {f : Machine → Machine} (hproc : (f m).proc = m.proc)
    (htouched : (f m).touched = m.touched) : RespectsAt Stays (modify f : Exec Unit) m :=
  ⟨by rw [hproc]; exact .refl _, fun a ha => .inl (by rw [← htouched]; exact ha)⟩

/-! What follows an access, a check or a reading of the state. -/

section
variable {α : Type}

theorem stays_bind_load {access : Nat → Access} {i : Nat} {f : MemCell → Exec α}
    (h : m.proc.Allows (access i)) (hf : ∀ t, RespectsAt Stays (f (m.ram i)) (recorded m t)) :
    RespectsAt Stays (load access i >>= f) m := by
  refine .bind (stays_load h) fun v m₁ hv => ?_
  obtain ⟨rfl, _, rfl⟩ := load_eq_ok hv
  exact hf _

theorem stays_bind_store {access : Nat → Access} {i : Nat} {v : MemCell} {f : Unit → Exec α}
    (h : m.proc.Allows (access i))
    (hf : ∀ t, RespectsAt Stays (f ()) (recorded (put m v (.ram i)) t)) :
    RespectsAt Stays (store access i v >>= f) m := by
  refine .bind (stays_store h) fun _ m₁ hv => ?_
  obtain ⟨_, rfl⟩ := store_eq_ok hv
  exact hf _

theorem stays_bind_raiseIf {c : Prop} [Decidable c] {e : Error} {f : Unit → Exec α}
    (hf : ¬ c → RespectsAt Stays (f ()) m) : RespectsAt Stays (raiseIf c e >>= f) m := by
  refine .bind (RespectsAt.ite (fun _ => .refl m) fun _ => .refl m) fun _ m₁ hcheck => ?_
  obtain ⟨hc, rfl⟩ := raiseIf_ok hcheck
  exact hf hc

theorem stays_bind_get {f : Machine → Exec α} (hf : RespectsAt Stays (f m) m) :
    RespectsAt Stays (get >>= f) m := hf

end

/-! ### Operands -/

/-- The cells of RAM that an operand makes an instruction touch. -/
def operandCells (m : Machine) (arg : RawArgument) : List Nat :=
  match arg.type with
  | .address | .indirectMem => [(arg.value + m.proc.firstSector).toNat]
  | .indirectLbl =>
    let addr := arg.value + m.proc.firstSector
    [addr.toNat, addr.toNat + 1,
      m.proc.firstSector.toNat + (word (m.ram addr.toNat) (m.ram (addr.toNat + 1))).toNat]
  | .indirectReg =>
    match registerOf arg.value with
    | some r => [m.proc.firstSector.toNat + (m.registers r).toNat]
    | none => []
  | .register | .number | .number16 | .other _ => []

/-- They are cells of the segment. -/
def OperandIn (m : Machine) (arg : RawArgument) : Prop := ∀ i ∈ operandCells m arg, m.proc.Segment i

instance (m : Machine) (arg : RawArgument) : Decidable (OperandIn m arg) := by
  unfold OperandIn
  infer_instance

/-- What operands depend on is as it was. -/
structure SameOperands (m m' : Machine) : Prop where
  ram : m'.ram = m.ram
  registers : m'.registers = m.registers
  proc : m'.proc = m.proc

instance : Std.Refl SameOperands := ⟨fun _ => ⟨rfl, rfl, rfl⟩⟩

instance : IsTrans Machine SameOperands :=
  ⟨fun _ _ _ h k => ⟨k.ram.trans h.ram, k.registers.trans h.registers, k.proc.trans h.proc⟩⟩

theorem SameOperands.operandIn {m m' : Machine} (h : SameOperands m m') {arg : RawArgument}
    (hin : OperandIn m arg) : OperandIn m' arg := by
  simpa only [OperandIn, operandCells, h.ram, h.registers, h.proc] using hin

/-- A register, or a cell of the segment. -/
def Exec.Cell.Within (p : Process) : Exec.Cell → Prop
  | .register _ => True
  | .ram i => p.Segment i

/-- The cell an operand denotes is one of those it touches. -/
theorem OperandIn.within {arg : RawArgument} {c : Cell} (h : OperandIn m arg)
    (hc : cellOf m arg = some c) : c.Within m.proc := by
  obtain ⟨type, value⟩ := arg
  cases type with
  | register =>
    simp only [cellOf, Option.map_eq_some_iff] at hc
    obtain ⟨r, _, rfl⟩ := hc
    trivial
  | address => cases hc; exact h _ (List.mem_cons_self ..)
  | indirectMem => cases hc; exact h _ (List.mem_cons_self ..)
  | indirectLbl =>
    simp only [cellOf] at hc
    split at hc
    · cases hc
      exact h _ (by simp [operandCells])
    · cases hc
  | indirectReg =>
    simp only [cellOf, Option.map_eq_some_iff] at hc
    obtain ⟨r, hr, rfl⟩ := hc
    exact h _ (by simp only [operandCells, hr, List.mem_singleton])
  | number => cases hc
  | number16 => cases hc
  | other b => cases hc

theorem stays_registerIndex (arg : MemAddr) : Respects Stays (registerIndex arg) := by
  unfold registerIndex
  split
  · exact .pure _
  · exact .throw _

theorem stays_resolve {arg : RawArgument} (h : OperandIn m arg) :
    RespectsAt Stays (resolveWriteableArg arg.type arg.value) m := by
  obtain ⟨type, value⟩ := arg
  cases type with
  | register => exact (Respects.bind (stays_registerIndex _) fun _ => .pure _).at m
  | address => exact (Respects.bind .get fun _ => .pure _).at m
  | indirectMem => exact (Respects.bind .get fun _ => .pure _).at m
  | indirectLbl =>
    have hhigh : m.proc.Segment (value + m.proc.firstSector).toNat := h _ (by simp [operandCells])
    have hlow : m.proc.Segment ((value + m.proc.firstSector).toNat + 1) := h _ (by simp [operandCells])
    refine .bind (Respects.get.at m) fun _ _ hget => ?_
    cases hget
    refine .bind (stays_load hhigh) fun high m₁ hload => ?_
    obtain ⟨_, _, rfl⟩ := load_eq_ok hload
    refine .bind (stays_load hlow) fun low m₂ _ => ?_
    exact (Respects.bind .get fun _ => .pure _).at m₂
  | indirectReg =>
    exact (Respects.bind (stays_registerIndex _) fun _ => .bind .get fun _ => .bind .get fun _ => .pure _).at m
  | number => exact .refl m
  | number16 => exact .refl m
  | other b => exact .refl m

theorem stays_read {c : Cell} (h : c.Within m.proc) : RespectsAt Stays c.read m := by
  cases c with
  | register r => exact (Respects.bind .get fun _ => .pure _).at m
  | ram i => exact stays_load h

theorem stays_write {c : Cell} {v : MemCell} (h : c.Within m.proc) : RespectsAt Stays (c.write v) m := by
  cases c with
  | register r => exact stays_modify rfl rfl
  | ram i => exact stays_store h

theorem stays_cellValue {arg : RawArgument} (h : OperandIn m arg) :
    RespectsAt Stays (cellValue arg) m := by
  refine .bind (stays_resolve h) fun c m₁ hc => ?_
  obtain ⟨hcell, t, rfl⟩ := resolve_eq_ok hc
  exact stays_read (h.within hcell)

theorem stays_operandValue {arg : RawArgument} (h : OperandIn m arg) :
    RespectsAt Stays (operandValue arg) m :=
  .ite (fun _ => .refl m) fun _ => stays_cellValue h

theorem stays_wordValue {p : Prop} [Decidable p] {arg : RawArgument} (h : p ∨ OperandIn m arg) :
    RespectsAt Stays (wordValue p arg) m :=
  .ite (fun _ => .refl m) fun hp => .bind (stays_cellValue (h.resolve_left hp)) fun _ m₁ _ => .refl m₁

theorem stays_bind_operand {α : Type} {arg : RawArgument} {f : MemCell → Exec α} (h : OperandIn m arg)
    (hf : ∀ v t, RespectsAt Stays (f v) (recorded m t)) :
    RespectsAt Stays (operandValue arg >>= f) m := by
  refine .bind (stays_operandValue h) fun v m₁ hv => ?_
  obtain ⟨t, rfl⟩ := (records_operandValue arg).ok hv
  exact hf v t

theorem stays_bind_word {α : Type} {p : Prop} [Decidable p] {arg : RawArgument} {f : MemAddr → Exec α}
    (h : p ∨ OperandIn m arg)
    (hf : ∀ v t, wordValue p arg m = .ok v (recorded m t) → RespectsAt Stays (f v) (recorded m t)) :
    RespectsAt Stays (wordValue p arg >>= f) m := by
  refine .bind (stays_wordValue h) fun v m₁ hv => ?_
  obtain ⟨t, rfl⟩ := (records_wordValue p arg).ok hv
  exact hf v t hv

/-- `resolve_writeable_arg(..) = v`. -/
theorem stays_assign {arg : RawArgument} {v : MemCell} (h : OperandIn m arg) :
    RespectsAt Stays (resolveWriteableArg arg.type arg.value >>= fun c => c.write v) m := by
  refine .bind (stays_resolve h) fun c m₁ hc => ?_
  obtain ⟨hcell, t, rfl⟩ := resolve_eq_ok hc
  exact stays_write (h.within hcell)

theorem stays_bind_assign {α : Type} {arg : RawArgument} {v : MemCell} {f : Unit → Exec α}
    (h : OperandIn m arg) (hf : ∀ m₁, RespectsAt Stays (f ()) m₁) :
    RespectsAt Stays (resolveWriteableArg arg.type arg.value >>= fun c => c.write v >>= f) m := by
  refine .bind (stays_resolve h) fun c m₁ hc => ?_
  obtain ⟨hcell, t, rfl⟩ := resolve_eq_ok hc
  exact .bind (stays_write (h.within hcell)) fun _ m₂ _ => hf m₂

theorem stays_updateCell {op : MemCell → MemCell → MemCell} {a : RawArgument} {bVal : MemCell}
    (h : OperandIn m a) : RespectsAt Stays (updateCell op a bVal) m := by
  refine .bind (stays_resolve h) fun c m₁ hc => ?_
  obtain ⟨hcell, t, rfl⟩ := resolve_eq_ok hc
  refine .bind (stays_read (h.within hcell)) fun v m₂ hv => ?_
  obtain ⟨u, rfl⟩ := (records_read c).ok hv
  exact stays_write (h.within hcell)

/-! ### Data, arithmetic and jumps -/

theorem stays_printed (bytes : List MemCell) : RespectsAt Stays (printed bytes) m :=
  stays_modify rfl rfl

theorem stays_mov {dest src : RawArgument} (hsrc : OperandIn m src) (hdest : OperandIn m dest) :
    RespectsAt Stays (mov dest src) m := stays_bind_operand hsrc fun _ _ => stays_assign hdest

theorem stays_print {el : RawArgument} (h : OperandIn m el) : RespectsAt Stays (print el) m :=
  stays_bind_operand h fun _ _ => stays_printed _

/-- `ADD`, `SUB` and `MUL`. -/
theorem stays_update {op : MemCell → MemCell → MemCell} {a b : RawArgument} (hb : OperandIn m b)
    (ha : OperandIn m a) : RespectsAt Stays (operandValue b >>= updateCell op a) m :=
  stays_bind_operand hb fun _ _ => stays_updateCell ha

theorem stays_div {a b : RawArgument} (hb : OperandIn m b) (ha : OperandIn m a) :
    RespectsAt Stays (div a b) m :=
  stays_bind_operand hb fun _ _ => stays_bind_raiseIf fun _ => stays_updateCell ha

/-- `get_gui` and what `INPUT` reads: the flag is touched, and nothing else that an
operand depends on changes. -/
def Outside (m m' : Machine) : Prop := SameOperands m m' ∧ Stays m m'

instance : Std.Refl Outside := ⟨fun m => ⟨refl_of SameOperands m, .refl m⟩⟩

instance : IsTrans Machine Outside :=
  ⟨fun _ _ _ h k => ⟨trans_of SameOperands h.1 k.1, h.2.trans k.2⟩⟩

theorem outside_getGui : Respects Outside getGui := by
  refine .bind (fun m => ?_) fun _ => .pure _
  have hflag : m.proc.Allows (.flag guiFlag) := rfl
  rw [ensures_load]
  exact ⟨fun _ => ⟨⟨rfl, rfl, rfl⟩, stays_record hflag m.ram⟩,
    fun _ => ⟨⟨rfl, rfl, rfl⟩, stays_record hflag m.ram⟩⟩

theorem outside_inputValue : Respects Outside inputValue := by
  have hsame : ∀ {m m' : Machine}, m'.ram = m.ram → m'.registers = m.registers → m'.proc = m.proc →
      m'.touched = m.touched → Outside m m' := fun hram hregs hproc htouched =>
    ⟨⟨hram, hregs, hproc⟩, ⟨by rw [hproc]; exact .refl _, fun a ha => .inl (by rw [← htouched]; exact ha)⟩⟩
  have hextract : Respects Outside extractInput := fun m => hsame rfl rfl rfl rfl
  refine .bind outside_getGui fun _ => .ite (.bind .get fun m => ?_) hextract
  cases m.window with
  | uninitialised => exact .throw _
  | null => exact hextract
  | opened => exact fun m => hsame rfl rfl rfl rfl

theorem stays_input {arg : RawArgument} (h : OperandIn m arg) : RespectsAt Stays (input arg) m :=
  .bind ((outside_inputValue.at m).mono fun _ h => h.2) fun _ _ hv =>
    stays_assign ((outside_inputValue.ok hv).1.operandIn h)

theorem stays_cmp {arg1 arg2 : RawArgument} (h₁ : OperandIn m arg1) (h₂ : OperandIn m arg2) :
    RespectsAt Stays (cmp arg1 arg2) m := by
  refine stays_bind_operand h₁ fun _ _ => ?_
  refine stays_bind_operand h₂ fun _ _ => ?_
  exact stays_modify rfl rfl

theorem stays_jumpTo (offset : MemAddr) : RespectsAt Stays (jumpTo offset) m :=
  stays_proc ⟨rfl, rfl, rfl, rfl, rfl, rfl, rfl, rfl⟩

theorem stays_jmp {target : RawArgument} (h : target.type = .address ∨ OperandIn m target) :
    RespectsAt Stays (jmp target) m :=
  stays_bind_word h fun _ _ _ => stays_jumpTo _

/-- A conditional jump uses its operand where the condition holds. -/
def JumpIn (m : Machine) (condition : Bool → Bool → Bool) (arg : RawArgument) : Prop :=
  condition m.zero m.sign = true → (arg.type = .number ∨ arg.type = .address) ∨ OperandIn m arg

theorem stays_jumpIf {condition : Bool → Bool → Bool} {arg : RawArgument} (h : JumpIn m condition arg) :
    RespectsAt Stays (jumpIf condition arg) m :=
  stays_bind_get (.ite (fun hc => stays_bind_word (h hc) fun _ _ _ => stays_jumpTo _)
    fun _ => .refl m)

/-! ### The stack -/

/-- SP is in the segment, with room for a word below it. -/
def StackIn (p : Process) : Prop := p.firstSector.toNat + 2 ≤ p.sp.toNat ∧ p.sp.toNat ≤ p.top

/-- The cells a push of up to a word writes. -/
theorem StackIn.below {p : Process} (h : StackIn p) {n i : Nat} (hn : n ≤ 2) (hi : i < n) :
    p.Segment ((p.sp - UInt16.ofNat n).toNat + i) := by
  unfold StackIn at h
  have hsp : (p.sp - UInt16.ofNat n).toNat = p.sp.toNat - n := by
    rw [UInt16.toNat_sub, UInt16.toNat_ofNat']
    have := p.sp.toNat_lt
    omega
  unfold Process.Segment
  omega

/-- The cells a pop that passed its check reads. -/
theorem StackIn.above {p : Process} (h : StackIn p) {n i : Nat}
    (hcheck : ¬ p.firstSector.toNat + p.allocatedMemory < p.sp.toNat + n) (hi : i < n) :
    p.Segment (p.sp.toNat + i) := by
  unfold StackIn at h
  unfold Process.Segment Process.top
  omega

theorem stays_bind_lowerSP {α : Type} {n : Nat} {f : Unit → Exec α}
    (hf : RespectsAt Stays (f ()) {m with proc := {m.proc with sp := m.proc.sp - UInt16.ofNat n}}) :
    RespectsAt Stays (lowerSP n >>= f) m :=
  .bind (stays_proc ⟨rfl, rfl, rfl, rfl, rfl, rfl, rfl, rfl⟩) fun _ _ hsp => by
    cases hsp
    exact hf

theorem stays_raiseSP (n : Nat) : RespectsAt Stays (raiseSP n) m :=
  stays_proc ⟨rfl, rfl, rfl, rfl, rfl, rfl, rfl, rfl⟩

theorem stays_spush {arg : RawArgument} (harg : arg.type = .number ∨ OperandIn m arg)
    (h : StackIn m.proc) : RespectsAt Stays (spush arg) m := by
  have hwidth := stackWidth_le arg.type
  refine stays_bind_word harg fun value t _ => stays_bind_lowerSP (stays_bind_get (stays_bind_raiseIf fun _ => ?_))
  refine .ite (fun hone => stays_store ?_) fun htwo => stays_bind_store ?_ fun _ => stays_store ?_
  · exact h.below (i := 0) hwidth.2 (by omega)
  · exact h.below (i := 0) hwidth.2 (by omega)
  · exact h.below (i := 1) hwidth.2 (by omega)

theorem stays_spop {arg : RawArgument} (harg : OperandIn m arg) (h : StackIn m.proc) :
    RespectsAt Stays (spop arg) m := by
  have hwidth := stackWidth_le arg.type
  refine stays_bind_get (stays_bind_raiseIf fun hcheck => ?_)
  refine .ite (fun hone => stays_bind_load ?_ fun _ => ?_) fun htwo =>
    stays_bind_load ?_ fun _ => stays_bind_load ?_ fun _ => ?_
  · exact h.above (i := 0) hcheck (by omega)
  · exact stays_bind_assign harg fun m₁ => stays_raiseSP _
  · exact h.above (i := 0) hcheck (by omega)
  · exact h.above (i := 1) hcheck (by omega)
  · exact stays_bind_assign harg fun m₁ => stays_raiseSP _

theorem stays_call (arg : RawArgument) (h : StackIn m.proc) : RespectsAt Stays (call arg) m := by
  refine stays_bind_raiseIf fun _ => stays_bind_get (stays_bind_lowerSP (stays_bind_get
    (stays_bind_raiseIf fun _ => stays_bind_store ?_ fun _ => stays_bind_store ?_ fun _ => ?_)))
  · exact h.below (n := 2) (i := 0) (by omega) (by omega)
  · exact h.below (n := 2) (i := 1) (by omega) (by omega)
  · exact stays_proc ⟨rfl, rfl, rfl, rfl, rfl, rfl, rfl, rfl⟩

theorem stays_ret (h : StackIn m.proc) : RespectsAt Stays ret m := by
  refine stays_bind_get (stays_bind_raiseIf fun hcheck => stays_bind_load ?_ fun _ =>
    stays_bind_load ?_ fun _ => .bind (stays_raiseSP _) fun _ _ _ => ?_)
  · exact h.above (n := 2) (i := 0) hcheck (by omega)
  · exact h.above (n := 2) (i := 1) hcheck (by omega)
  · exact stays_proc ⟨rfl, rfl, rfl, rfl, rfl, rfl, rfl, rfl⟩

/-! ### The heap -/

/-- The size a header states. -/
def headerSize (ram : Nat → MemCell) (a : Nat) : Nat := (ram a).toNat * 256 + (ram (a + 1)).toNat

/-- The headers lead from `a` past `limit` by blocks that end at `top` or before. -/
inductive HeaderWalk (ram : Nat → MemCell) (limit top : Nat) : Nat → Prop
  | past {a : Nat} (h : limit ≤ a) : HeaderWalk ram limit top a
  | block {a : Nat} (hfit : a + heapHeaderBlockSize + headerSize ram a ≤ top)
      (h : HeaderWalk ram limit top (a + heapHeaderBlockSize + headerSize ram a)) :
      HeaderWalk ram limit top a

/-- The headers of the heap stay in the segment. -/
def HeapIn (p : Process) (ram : Nat → MemCell) : Prop :=
  HeaderWalk ram p.heapLimit.toNat p.top p.heapStart.toNat

/-- A walk depends on what lies from its start on. -/
theorem HeaderWalk.congr {ram ram' : Nat → MemCell} {limit top a : Nat}
    (h : HeaderWalk ram limit top a) (heq : ∀ i, a ≤ i → ram' i = ram i) : HeaderWalk ram' limit top a := by
  induction h with
  | past h => exact .past h
  | @block a hfit _ ih =>
    have hsize : headerSize ram' a = headerSize ram a := by
      rw [headerSize, headerSize, heq a (Nat.le_refl a), heq (a + 1) (Nat.le_succ a)]
    refine .block (by rw [hsize]; exact hfit) ?_
    rw [hsize]
    exact ih fun i hi => heq i (by omega)

/-- The row of a well-formed heap is such a walk. -/
theorem ChainAt.walk {ram : Nat → MemCell} {limit top a : Nat} {bs : List Blocks.Block}
    (h : ChainAt ram a bs) (hlimit : limit ≤ a + Blocks.span heapHeaderBlockSize bs)
    (htop : a + Blocks.span heapHeaderBlockSize bs ≤ top) : HeaderWalk ram limit top a := by
  induction bs generalizing a with
  | nil => exact .past hlimit
  | cons b bs ih =>
    rw [Blocks.span_cons] at hlimit htop
    have hsize : headerSize ram a = b.size := h.1.1
    refine .block (by rw [hsize]; omega) ?_
    rw [hsize]
    exact ih h.2 (by omega) (by omega)

theorem HeapInv.heapIn {bs : List Blocks.Block} (h : HeapInv m bs) : HeapIn m.proc m.ram := by
  obtain ⟨size, hl⟩ := h.loaded
  have htop := hl.top
  have hstart := hl.heapStart
  have hend := h.bounds
  exact h.chain.walk (by omega) (by omega)

/-- A place of the heap from which the headers lead on inside the segment. -/
structure Cursor (m : Machine) (a : MemAddr) : Prop where
  loaded : ∃ size, Loaded size m.proc
  start : m.proc.heapStart.toNat ≤ a.toNat
  walk : HeaderWalk m.ram m.proc.heapLimit.toNat m.proc.top a.toNat

section
variable {a : MemAddr} {α : Type}

theorem Cursor.record (h : Cursor m a) (t : List Access) : Cursor (recorded m t) a :=
  ⟨h.loaded, h.start, h.walk⟩

/-- The header at a cursor below the limit is in the segment. -/
theorem Cursor.header (h : Cursor m a) (hlt : a.toNat < m.proc.heapLimit.toNat) {i : Nat} (hi : i < 3) :
    m.proc.Segment (a.toNat + i) := by
  obtain ⟨size, hl⟩ := h.loaded
  have htop := hl.top
  have hstart := hl.heapStart
  have hlimit := hl.heapLimit
  have hle := h.start
  unfold Process.Segment
  omega

/-- The block of a cursor, and the next one. -/
theorem Cursor.next (h : Cursor m a) (hlt : a.toNat < m.proc.heapLimit.toNat) :
    a.toNat + heapHeaderBlockSize + headerSize m.ram a.toNat ≤ m.proc.top ∧
      Cursor m (nextChunk a (headerSize m.ram a.toNat)) := by
  obtain ⟨size, hl⟩ := h.loaded
  have htop := hl.top
  have hfits := hl.fits
  have hflag : guiFlag = 59903 := rfl
  have hle := h.start
  cases h.walk with
  | past hpast => omega
  | block hfit hwalk =>
    have hnext := nextChunk_toNat (a := a) (n := headerSize m.ram a.toNat) (by omega)
    exact ⟨hfit, ⟨size, hl⟩, by rw [hnext]; omega, by rw [hnext]; exact hwalk⟩

theorem header_eq_ok {r : Nat × MemCell} {m' : Machine} (h : Exec.header a m = .ok r m') :
    r = (headerSize m.ram a.toNat, m.ram (a.toNat + 2)) ∧ ∃ t, m' = recorded m t := by
  obtain ⟨high, m₁, hhigh, h⟩ := bind_eq_ok.mp h
  obtain ⟨low, m₂, hlow, h⟩ := bind_eq_ok.mp h
  obtain ⟨status, m₃, hstatus, h⟩ := bind_eq_ok.mp h
  obtain ⟨rfl, _, rfl⟩ := load_eq_ok hhigh
  obtain ⟨rfl, _, rfl⟩ := load_eq_ok hlow
  obtain ⟨rfl, _, rfl⟩ := load_eq_ok hstatus
  cases h
  exact ⟨rfl, _, rfl⟩

theorem stays_bind_header {f : Nat × MemCell → Exec α} (h : Cursor m a)
    (hlt : a.toNat < m.proc.heapLimit.toNat)
    (hf : ∀ t, RespectsAt Stays (f (headerSize m.ram a.toNat, m.ram (a.toNat + 2))) (recorded m t)) :
    RespectsAt Stays (Exec.header a >>= f) m := by
  refine .bind (stays_bind_load ?_ fun _ => stays_bind_load ?_ fun _ => stays_bind_load ?_ fun _ => .refl _)
    fun r m₁ hr => ?_
  · exact h.header (i := 0) hlt (by omega)
  · exact h.header (i := 1) hlt (by omega)
  · exact h.header (i := 2) hlt (by omega)
  · obtain ⟨rfl, t, rfl⟩ := header_eq_ok hr
    exact hf t

/-- The search of `HALLOC` looks at headers of the walk only. -/
theorem stays_hallocScan (n fuel : Nat) (h : Cursor m a) : RespectsAt Stays (hallocScan n fuel a) m := by
  induction fuel generalizing m a with
  | zero => exact .refl m
  | succ fuel ih =>
    refine stays_bind_get (stays_bind_raiseIf fun hlimit => ?_)
    have hlt : a.toNat < m.proc.heapLimit.toNat := by
      rw [UInt16.le_iff_toNat_le] at hlimit
      omega
    refine stays_bind_header h hlt fun t => ?_
    have hnext := (h.next hlt).2.record t
    exact .ite (fun _ => ih hnext) fun _ => .ite (fun _ => .refl _) fun _ => ih hnext

/-- What it finds is a block of the walk that is large enough. -/
theorem hallocScan_eq_ok {n fuel dimension : Nat} {chunk : MemAddr} {m' : Machine} (h : Cursor m a)
    (hok : hallocScan n fuel a m = .ok (chunk, dimension) m') :
    (∃ t, m' = recorded m t) ∧ m.proc.heapStart.toNat ≤ chunk.toNat ∧
      chunk.toNat < m.proc.heapLimit.toNat ∧ n ≤ dimension ∧
      chunk.toNat + heapHeaderBlockSize + dimension ≤ m.proc.top := by
  induction fuel generalizing m a with
  | zero => cases hok
  | succ fuel ih =>
    obtain ⟨_, _, hget, hok⟩ := bind_eq_ok.mp hok
    cases hget
    obtain ⟨_, m₁, hcheck, hbody⟩ := bind_eq_ok.mp hok
    obtain ⟨hlimit, rfl⟩ := raiseIf_ok hcheck
    obtain ⟨r, m₂, hr, hrest⟩ := bind_eq_ok.mp hbody
    obtain ⟨rfl, t, rfl⟩ := header_eq_ok hr
    have hlt : a.toNat < m₁.proc.heapLimit.toNat := by
      rw [UInt16.le_iff_toNat_le] at hlimit
      omega
    obtain ⟨hfit, hnext⟩ := h.next hlt
    dsimp only at hrest
    split at hrest
    · exact have hfound := ih (hnext.record t) hrest; hfound
    · split at hrest
      · cases hrest
        exact ⟨⟨t, rfl⟩, h.start, hlt, ‹_›, hfit⟩
      · exact have hfound := ih (hnext.record t) hrest; hfound

/-- Nothing below `c` changes, nor the registers and the process. -/
structure Above (c : Nat) (m m' : Machine) : Prop where
  registers : m'.registers = m.registers
  proc : m'.proc = m.proc
  ram : ∀ i < c, m'.ram i = m.ram i

instance (c : Nat) : IsTrans Machine (Above c) :=
  ⟨fun _ _ _ h k => ⟨k.registers.trans h.registers, k.proc.trans h.proc, fun i hi =>
    (k.ram i hi).trans (h.ram i hi)⟩⟩

theorem above_store {c i : Nat} (v : MemCell) (hi : c ≤ i) : Respects (Above c) (store .store i v) := by
  intro m
  rw [ensures_store]
  exact ⟨fun _ => ⟨rfl, rfl, fun j hj => Function.update_of_ne (by omega) _ _⟩,
    fun _ => ⟨rfl, rfl, fun _ _ => rfl⟩⟩

theorem above_writeHeader {c start : Nat} (size : Nat) (status : HeapReg) (h : c ≤ start) :
    Respects (Above c) (writeHeader start size status) :=
  .bind (above_store _ h) fun _ => .bind (above_store _ (by omega)) fun _ => above_store _ (by omega)

theorem above_carve (size chunk dimension : Nat) : Respects (Above chunk) (Exec.carve size chunk dimension) :=
  .ite (.bind (above_writeHeader _ _ (by omega)) fun _ => above_writeHeader _ _ (Nat.le_refl _))
    (above_writeHeader _ _ (Nat.le_refl _))

theorem stays_writeHeader {start : Nat} (size : Nat) (status : HeapReg)
    (h : ∀ i < 3, m.proc.Segment (start + i)) : RespectsAt Stays (writeHeader start size status) m := by
  refine stays_bind_store ?_ fun _ => stays_bind_store ?_ fun _ => stays_store ?_
  · exact h 0 (by omega)
  · exact h 1 (by omega)
  · exact h 2 (by omega)

theorem stays_carve {size chunk dimension : Nat}
    (hstart : m.proc.firstSector.toNat ≤ chunk) (hfit : chunk + heapHeaderBlockSize + dimension ≤ m.proc.top) :
    RespectsAt Stays (Exec.carve size chunk dimension) m := by
  have hblock : heapHeaderBlockSize = 3 := rfl
  have hhead : ∀ i < 3, m.proc.Segment (chunk + i) := fun i hi => by
    unfold Process.Segment
    omega
  refine .ite (fun hsplit => .bind (stays_writeHeader _ _ fun i hi => ?_) fun _ m₁ hm₁ =>
    stays_writeHeader _ _ fun i hi => ?_) fun _ => stays_writeHeader _ _ hhead
  · unfold Process.Segment
    omega
  · rw [((above_writeHeader _ _ (Nat.le_refl _)).ok hm₁).proc]
    exact hhead i hi

end

/-- The place where `HALLOC` delivers: an operand of the segment, and if it is a pointer
then one kept in front of the heap, where no header is written over it. -/
structure PlaceIn (m : Machine) (place : RawArgument) : Prop where
  operand : OperandIn m place
  pointer : place.type = .indirectLbl →
    (place.value + m.proc.firstSector).toNat + 1 < m.proc.heapStart.toNat

theorem PlaceIn.above {m m' : Machine} {place : RawArgument} {c : Nat} (h : PlaceIn m place)
    (hc : m.proc.heapStart.toNat ≤ c) (habove : Above c m m') : OperandIn m' place := by
  obtain ⟨hregs, hproc, hram⟩ := habove
  have hoperand := h.operand
  have hpointer := h.pointer
  obtain ⟨type, value⟩ := place
  cases type with
  | indirectLbl =>
    have hlt := hpointer rfl
    dsimp only at hlt
    have hcells : operandCells m' ⟨.indirectLbl, value⟩ = operandCells m ⟨.indirectLbl, value⟩ := by
      simp only [operandCells, hproc]
      rw [hram _ (by omega), hram _ (by omega)]
    rw [OperandIn, hcells, hproc]
    exact hoperand
  | _ => simpa only [OperandIn, operandCells, hregs, hproc] using hoperand

theorem stays_halloc {size place : RawArgument} {codeSize : Nat} (hl : Loaded codeSize m.proc)
    (hsize : size.type = .number ∨ OperandIn m size) (hplace : PlaceIn m place)
    (hheap : HeapIn m.proc m.ram) : RespectsAt Stays (halloc place size) m := by
  refine stays_bind_word hsize fun n t _ => stays_bind_get ?_
  have hcursor : Cursor (recorded m t) m.proc.heapStart := ⟨⟨codeSize, hl⟩, Nat.le_refl _, hheap⟩
  refine .bind (stays_hallocScan _ _ hcursor) fun r m₁ hr => ?_
  obtain ⟨⟨u, rfl⟩, hstart, _, _, hfit⟩ := hallocScan_eq_ok hcursor hr
  have hfirst := hl.heapStart
  have hstart : m.proc.heapStart.toNat ≤ r.1.toNat := hstart
  refine .bind (stays_carve ?_ hfit) fun _ m₂ hm₂ => stays_assign ?_
  · show m.proc.firstSector.toNat ≤ r.1.toNat
    omega
  · exact hplace.above hstart
      (trans_of (Above _) (a := m) (b := recorded (recorded m t) u) ⟨rfl, rfl, fun _ _ => rfl⟩
        ((above_carve _ _ _).ok hm₂))

theorem headerSize_resized (ram : Nat → MemCell) (a : Nat) {n : Nat} (h : n < 65536) :
    headerSize (resized ram a n) a = n := by
  obtain ⟨hhigh, hlow, _⟩ := holds_writeBytes ram a [highByte n, lowByte n]
  rw [headerSize, resized, hhigh, hlow]
  exact bytes_size h

/-- Merging two blocks of a walk leaves a walk. -/
theorem Cursor.merge {a : MemAddr} (h : Cursor m a) (hlt : a.toNat < m.proc.heapLimit.toNat)
    (hnext : nextChunk a (headerSize m.ram a.toNat) < m.proc.heapLimit) (t : List Access) :
    Cursor (recorded (withRam m (resized m.ram a.toNat (headerSize m.ram a.toNat + heapHeaderBlockSize +
      headerSize m.ram (nextChunk a (headerSize m.ram a.toNat)).toNat))) t) a := by
  have hblock : heapHeaderBlockSize = 3 := rfl
  have hflag : guiFlag = 59903 := rfl
  obtain ⟨size, hl⟩ := h.loaded
  have htop := hl.top
  have hfits := hl.fits
  obtain ⟨hfit, hcursor⟩ := h.next hlt
  have hplace := nextChunk_toNat (a := a) (n := headerSize m.ram a.toNat) (by omega)
  obtain ⟨hfit', hcursor'⟩ := hcursor.next (UInt16.lt_iff_toNat_lt.mp hnext)
  have hplace' := nextChunk_toNat (a := nextChunk a (headerSize m.ram a.toNat))
    (n := headerSize m.ram (nextChunk a (headerSize m.ram a.toNat)).toNat) (by omega)
  have hwalk := hcursor'.walk
  rw [hplace'] at hwalk
  generalize headerSize m.ram (nextChunk a (headerSize m.ram a.toNat)).toNat = size' at *
  rw [hplace] at hfit' hwalk
  have hsize := headerSize_resized m.ram a.toNat
    (show headerSize m.ram a.toNat + heapHeaderBlockSize + size' < 65536 by omega)
  refine ⟨⟨size, hl⟩, h.start, .block ?_ ?_⟩
  · show a.toNat + heapHeaderBlockSize + headerSize (resized m.ram a.toNat _) a.toNat ≤ m.proc.top
    rw [hsize]
    omega
  · show HeaderWalk (resized m.ram a.toNat _) m.proc.heapLimit.toNat m.proc.top
      (a.toNat + heapHeaderBlockSize + headerSize (resized m.ram a.toNat _) a.toNat)
    rw [hsize, show a.toNat + heapHeaderBlockSize + (headerSize m.ram a.toNat + heapHeaderBlockSize + size') =
      a.toNat + heapHeaderBlockSize + headerSize m.ram a.toNat + heapHeaderBlockSize + size' by omega]
    exact hwalk.congr fun i hi => resized_outside (by omega)

/-- The loop of `HFREE` stays in the walk. -/
theorem stays_coalesce {a : MemAddr} (fuel : Nat) (h : Cursor m a) :
    RespectsAt Stays (Exec.coalesce fuel a) m := by
  induction fuel generalizing m a with
  | zero => exact .refl m
  | succ fuel ih =>
    refine stays_bind_get (.ite (fun hlimit => ?_) fun _ => .refl m)
    have hlt : a.toNat < m.proc.heapLimit.toNat := UInt16.lt_iff_toNat_lt.mp hlimit
    refine stays_bind_header h hlt fun t => .ite (fun hlimit' => ?_) fun _ => .refl _
    have hnext := (h.next hlt).2.record t
    have hlt' := UInt16.lt_iff_toNat_lt.mp hlimit'
    refine stays_bind_header hnext hlt' fun u => .ite (fun _ => ?_) fun _ => ih (hnext.record u)
    refine stays_bind_store ?_ fun v => stays_bind_store ?_ fun w => ih ?_
    · exact h.header (i := 0) hlt (by omega)
    · exact h.header (i := 1) hlt (by omega)
    · exact h.merge hlt hlimit' w

/-- The address `HFREE` takes the payload to be at. -/
def freedAddress (m : Machine) (arg : RawArgument) : Option MemAddr :=
  if arg.type = .address then some arg.value else (cellOf m arg).map fun c => (c.value m).toUInt16

/-- The status byte in front of the payload is in the segment, and with it cleared the
headers stay there. -/
structure FreeIn (m : Machine) (v : MemAddr) : Prop where
  status : m.proc.Segment ((v - UInt16.ofNat heapHeaderBlockSize).toNat + 2)
  heap : HeapIn m.proc (Function.update m.ram ((v - UInt16.ofNat heapHeaderBlockSize).toNat + 2)
    HeapReg.free.toByte)

theorem stays_hfree {arg : RawArgument} {codeSize : Nat} (hl : Loaded codeSize m.proc)
    (harg : arg.type = .address ∨ OperandIn m arg) (hfreed : ∀ v, freedAddress m arg = some v → FreeIn m v) :
    RespectsAt Stays (hfree arg) m := by
  refine stays_bind_word harg fun v t hv => ?_
  obtain ⟨hstatus, hheap⟩ := hfreed v (Exec.wordValue_eq_ok hv)
  exact stays_bind_load hstatus fun _ => stays_bind_raiseIf fun _ => stays_bind_store hstatus fun _ =>
    stays_bind_get (stays_coalesce _ ⟨⟨codeSize, hl⟩, Nat.le_refl _, hheap⟩)

/-! ### The framebuffer -/

/-- The cells of RAM that hold the pixel index of `FBSET`, and what they say. -/
def indexCells (m : Machine) (index : RawArgument) : List Nat :=
  match index.type with
  | .indirectReg =>
    match registerOf index.value with
    | some r =>
      let realAddr := m.proc.firstSector + (m.registers r).toUInt16
      [realAddr.toNat, realAddr.toNat + 1]
    | none => []
  | .indirectMem | .address =>
    let realAddr := m.proc.firstSector + index.value
    [realAddr.toNat, realAddr.toNat + 1]
  | .number | .number16 | .register | .indirectLbl | .other _ => []

/-- The pixel `FBSET` sets. -/
def pixelOf (m : Machine) (index : RawArgument) : Option MemAddr :=
  match index.type with
  | .number | .number16 => some index.value
  | .register =>
    match registerOf index.value, registerOf (index.value + 1) with
    | some hi, some lo => some (word (m.registers hi) (m.registers lo))
    | _, _ => none
  | .indirectReg | .indirectMem | .address =>
    match indexCells m index with
    | [high, low] => some (word (m.ram high) (m.ram low))
    | _ => none
  | .indirectLbl | .other _ => some 0

/-- The index is read in the segment, and is one of a pixel. -/
structure PixelIn (m : Machine) (index : RawArgument) : Prop where
  cells : ∀ i ∈ indexCells m index, m.proc.Segment i
  pixel : ∀ k, pixelOf m index = some k → k.toNat < VMconf.framebufferTotSize

/-- A register operand touches no RAM. -/
theorem operandIn_register (value : MemAddr) : OperandIn m ⟨.register, value⟩ := fun _ hi => by cases hi

theorem stays_pixelIndex {index : RawArgument} (h : ∀ i ∈ indexCells m index, m.proc.Segment i) :
    RespectsAt Stays (pixelIndex index) m := by
  obtain ⟨type, value⟩ := index
  cases type with
  | number => exact .refl m
  | number16 => exact .refl m
  | register =>
    refine .bind (stays_cellValue (operandIn_register _)) fun _ m₁ hv => ?_
    exact .bind (stays_cellValue (operandIn_register _)) fun _ m₂ _ => .refl m₂
  | indirectReg =>
    refine stays_bind_get (.bind (Respects.at (stays_registerIndex _) m) fun r m₁ hr => ?_)
    obtain ⟨hreg, rfl⟩ := registerIndex_ok hr
    have hreg : registerOf value = some r := hreg
    simp only [indexCells, hreg, List.mem_cons, List.not_mem_nil, or_false, forall_eq_or_imp,
      forall_eq] at h
    exact stays_bind_get (stays_bind_load h.1 fun _ => stays_bind_load h.2 fun _ => .refl _)
  | indirectMem =>
    exact stays_bind_get (stays_bind_load (h _ (by simp [indexCells])) fun _ =>
      stays_bind_load (h _ (by simp [indexCells])) fun _ => .refl _)
  | address =>
    exact stays_bind_get (stays_bind_load (h _ (by simp [indexCells])) fun _ =>
      stays_bind_load (h _ (by simp [indexCells])) fun _ => .refl _)
  | indirectLbl => exact .refl m
  | other b => exact .refl m

theorem pixelIndex_eq_ok {index : RawArgument} {k : MemAddr} {m' : Machine}
    (h : pixelIndex index m = .ok k m') : pixelOf m index = some k ∧ ∃ t, m' = recorded m t := by
  obtain ⟨type, value⟩ := index
  cases type with
  | number => cases h; exact ⟨rfl, m.touched, rfl⟩
  | number16 => cases h; exact ⟨rfl, m.touched, rfl⟩
  | register =>
    obtain ⟨hi, m₁, hhi, hbody⟩ := bind_eq_ok.mp h
    obtain ⟨lo, m₂, hlo, hk⟩ := bind_eq_ok.mp hbody
    cases hk
    obtain ⟨c, hc, rfl, t, rfl⟩ := cellValue_eq_ok hhi
    obtain ⟨d, hd, rfl, u, rfl⟩ := cellValue_eq_ok hlo
    simp only [cellOf, Option.map_eq_some_iff] at hc hd
    obtain ⟨r, hr, rfl⟩ := hc
    obtain ⟨r', hr', rfl⟩ := hd
    exact ⟨by simp only [pixelOf, hr, hr']; rfl, u, rfl⟩
  | indirectReg =>
    obtain ⟨_, _, hget, hbody⟩ := bind_eq_ok.mp h
    cases hget
    obtain ⟨r, m₁, hr, hbody⟩ := bind_eq_ok.mp hbody
    obtain ⟨hreg, rfl⟩ := registerIndex_ok hr
    have hreg : registerOf value = some r := hreg
    obtain ⟨rfl, hm'⟩ := loadWord_eq_ok hbody
    exact ⟨by simp only [pixelOf, indexCells, hreg], hm'⟩
  | indirectMem =>
    obtain ⟨rfl, hm'⟩ := loadWord_eq_ok h
    exact ⟨rfl, hm'⟩
  | address =>
    obtain ⟨rfl, hm'⟩ := loadWord_eq_ok h
    exact ⟨rfl, hm'⟩
  | indirectLbl => cases h; exact ⟨rfl, m.touched, rfl⟩
  | other b => cases h; exact ⟨rfl, m.touched, rfl⟩

theorem stays_bind_getGui {α : Type} {f : Bool → Exec α}
    (hf : ∀ t, RespectsAt Stays (f m.getGui) (recorded m t)) : RespectsAt Stays (getGui >>= f) m := by
  refine .bind ((outside_getGui.at m).mono fun _ h => h.2) fun gui m₁ hgui => ?_
  obtain ⟨rfl, t, rfl⟩ := getGui_eq_ok hgui
  exact hf t

theorem stays_fbset {index color : RawArgument} (hindex : m.getGui = true → PixelIn m index)
    (hcolor : m.getGui = true → OperandIn m color) : RespectsAt Stays (fbset index color) m := by
  refine stays_bind_raiseIf fun _ => stays_bind_getGui fun t => stays_bind_raiseIf fun hon => ?_
  have hon : m.getGui = true := not_not.mp hon
  obtain ⟨hcells, hpixel⟩ := hindex hon
  refine .bind (stays_pixelIndex (m := recorded m t) hcells) fun k m₁ hk => ?_
  obtain ⟨hpix, u, rfl⟩ := pixelIndex_eq_ok hk
  refine stays_bind_operand (hcolor hon) fun _ w => stays_bind_raiseIf fun _ => stays_store ?_
  have hlt := hpixel k hpix
  have hram : ramSize = 64000 := rfl
  have hstart : framebufferStart = 59904 := rfl
  have htot : VMconf.framebufferTotSize = 4096 := rfl
  exact ⟨Nat.le_add_right _ _, by omega⟩

/-- The pixels of the framebuffer are in RAM. -/
theorem stays_convert {i : Nat} (n : Nat) (h : i + n ≤ VMconf.framebufferTotSize) :
    RespectsAt Stays (convert i n) m := by
  induction n generalizing m i with
  | zero => exact .refl m
  | succ n ih =>
    have hram : ramSize = 64000 := rfl
    have hstart : framebufferStart = 59904 := rfl
    have htot : VMconf.framebufferTotSize = 4096 := rfl
    refine stays_bind_load ⟨Nat.le_add_right _ _, by omega⟩ fun t => ?_
    refine .bind ?_ fun _ m₁ _ => .bind (ih (by omega)) fun _ m₂ _ => .refl m₂
    unfold colorOf
    split
    · exact .refl _
    · exact .refl _

/-- Converting the framebuffer changes nothing, and can only fail by leaving the
defined behaviour. -/
theorem convert_ensures (i n : Nat) (m : Machine) :
    Ensures (convert i n) (fun _ s => s.window = m.window) (fun e _ => e = .undefined) m := by
  induction n generalizing i m with
  | zero => rfl
  | succ n ih =>
    rw [convert, ensures_bind, ensures_load]
    refine ⟨fun _ => ?_, fun _ => rfl⟩
    rw [ensures_bind]
    unfold colorOf
    split
    · rw [ensures_pure, ensures_bind]
      exact (ih _ _).mono (fun _ _ hs => hs) fun _ _ he => he
    · rfl

/-- Without a window `FBSYNC` uses one that was never set. -/
theorem fbsync_headless {m : Machine} (h : m.window = .uninitialised) :
    ∃ s, fbsync m = .error .undefined s := by
  have hfails : Ensures fbsync (fun _ _ => False) (fun e _ => e = .undefined) m := by
    unfold fbsync
    rw [ensures_bind]
    refine (convert_ensures _ _ m).mono (fun buffer s hs => ?_) fun _ _ he => he
    rw [ensures_bind, ensures_modify, ensures_bind]
    have hwindow : s.window = .uninitialised := hs.trans h
    unfold updateWindow Ensures
    simp only [hwindow]
  obtain ⟨e, s, he, rfl⟩ := ensures_fails.mp hfails
  exact ⟨s, he⟩

theorem stays_updateWindow : Respects Stays updateWindow := fun m =>
  ensures_updateWindow (.refl m) (fun _ => .refl m) fun _ _ _ => ⟨.refl _, fun _ => .inl⟩

theorem stays_fbsync : RespectsAt Stays fbsync m :=
  .bind (stays_convert _ (by decide)) fun _ m₁ _ => .bind (stays_modify rfl rfl) fun _ m₂ _ =>
    .bind (stays_updateWindow.at m₂) fun _ m₃ _ => .ite (fun _ => stays_printed _) fun _ => .refl m₃

/-! ### Confined turns -/

/-- The care an instruction needs: what it is to touch is its own. -/
def InstructionIn (m : Machine) : Instruction → Prop
  | .mov dest src => OperandIn m src ∧ OperandIn m dest
  | .print el => OperandIn m el
  | .add a b | .sub a b | .mul a b | .div a b => OperandIn m b ∧ OperandIn m a
  | .input arg => OperandIn m arg
  | .jmp target => target.type = .address ∨ OperandIn m target
  | .cmp arg1 arg2 => OperandIn m arg1 ∧ OperandIn m arg2
  | .je arg => JumpIn m (fun zero _ => zero) arg
  | .jne arg => JumpIn m (fun zero _ => !zero) arg
  | .jg arg => JumpIn m (fun _ sign => sign) arg
  | .jng arg => JumpIn m (fun _ sign => !sign) arg
  | .spush arg => (arg.type = .number ∨ OperandIn m arg) ∧ StackIn m.proc
  | .spop arg => OperandIn m arg ∧ StackIn m.proc
  | .halloc place size =>
    (size.type = .number ∨ OperandIn m size) ∧ PlaceIn m place ∧ HeapIn m.proc m.ram
  | .hfree arg =>
    (arg.type = .address ∨ OperandIn m arg) ∧ ∀ v, freedAddress m arg = some v → FreeIn m v
  | .call _ | .ret => StackIn m.proc
  | .fbset index color => m.getGui = true → PixelIn m index ∧ OperandIn m color
  | .nop | .printflush | .fbsync | .halt | .unknown _ => True

theorem stays_perform {i : Instruction} {codeSize : Nat} (hl : Loaded codeSize m.proc)
    (h : InstructionIn m i) : RespectsAt Stays (perform i) m := by
  cases i with
  | nop => exact .refl m
  | mov dest src => exact stays_mov h.1 h.2
  | print el => exact stays_print h
  | printflush => exact stays_printed _
  | add a b => exact stays_update h.1 h.2
  | sub a b => exact stays_update h.1 h.2
  | mul a b => exact stays_update h.1 h.2
  | div a b => exact stays_div h.1 h.2
  | input arg => exact stays_input h
  | jmp target => exact stays_jmp h
  | cmp arg1 arg2 => exact stays_cmp h.1 h.2
  | je arg => exact stays_jumpIf (show JumpIn m (fun zero _ => zero) arg from h)
  | jne arg => exact stays_jumpIf (show JumpIn m (fun zero _ => !zero) arg from h)
  | jg arg => exact stays_jumpIf (show JumpIn m (fun _ sign => sign) arg from h)
  | jng arg => exact stays_jumpIf (show JumpIn m (fun _ sign => !sign) arg from h)
  | spush arg => exact stays_spush h.1 h.2
  | spop arg => exact stays_spop h.1 h.2
  | halloc place size => exact stays_halloc hl h.1 h.2.1 h.2.2
  | hfree arg => exact stays_hfree hl h.1 h.2
  | call arg => exact stays_call arg h
  | ret => exact stays_ret h
  | fbset index color => exact stays_fbset (fun hgui => (h hgui).1) fun hgui => (h hgui).2
  | fbsync => exact stays_fbsync
  | halt => exact stays_proc ⟨rfl, rfl, rfl, rfl, rfl, rfl, rfl, rfl⟩
  | unknown opcode => exact .refl m

/-- A turn of the loop that is confined: PC has not been moved in front of the segment,
and the instruction there touches what is its own. -/
structure Confined (m : Machine) : Prop where
  pc : m.proc.firstSector.toNat ≤ m.proc.pc.toNat
  instruction : InstructionIn (fetched m) (current m)

/-- The bytes of an instruction that the loop goes on to are in the segment. -/
theorem stays_fetched {codeSize : Nat} (hl : Loaded codeSize m.proc) (hgo : m.goesOn = true)
    (hpc : m.proc.firstSector.toNat ≤ m.proc.pc.toNat) : Stays m (fetched m) := by
  refine ⟨fetched_layout m, fun a ha => ?_⟩
  rcases List.mem_append.mp ha with ha | ha
  · obtain ⟨i, hi, rfl⟩ := List.mem_map.mp (List.mem_reverse.mp ha)
    have hsize := currentSize_le m
    have hlast := hl.lastCodeSector
    have htop := hl.top
    have hlt := (Machine.goesOn_pc hgo).2
    rw [List.mem_range'_1] at hi
    exact .inr ⟨by omega, by omega⟩
  · exact .inl ha

/-- **A confined turn touches what it may**, whether it completes or not. -/
theorem stays_step {codeSize : Nat} (hl : Loaded codeSize m.proc) (hgo : m.goesOn = true)
    (h : Confined m) : RespectsAt Stays step m := by
  have hfetched := stays_fetched hl hgo h.pc
  have hcomplete : RespectsAt Stays (complete (current m)) (fetched m) :=
    .bind (stays_perform (hfetched.layout.loaded hl) h.instruction) fun _ m₁ _ => stays_modify rfl rfl
  unfold RespectsAt Ensures at hcomplete ⊢
  rw [Machine.step_fetched hl hgo]
  cases hrun : complete (current m) (fetched m) with
  | ok _ m' => rw [hrun] at hcomplete; exact hfetched.trans hcomplete
  | error e m' => rw [hrun] at hcomplete; exact hfetched.trans hcomplete

/-! ### Confined runs -/

/-- Everything touched so far was allowed. -/
def Clean (m : Machine) : Prop := ∀ a ∈ m.touched, m.proc.Allows a

instance (m : Machine) : Decidable (Clean m) := by
  unfold Clean
  infer_instance

theorem Stays.clean {m m' : Machine} (h : Stays m m') (hm : Clean m) : Clean m' := by
  intro a ha
  rw [h.layout.allows]
  rcases h.touched a ha with ha | ha
  · exact hm a ha
  · exact ha

/-- A clean run has left every other segment alone. -/
theorem Clean.others {m m' : Machine} {p : Process} {codeSize : Nat} (hclean : Clean m') (hkeeps : m.Keeps m')
    (hp : Loaded codeSize p) (hapart : Apart m.proc.range p.range) {i : Nat} (hi : p.Segment i) :
    m'.ram i = m.ram i := by
  have hflag : guiFlag = 59903 := rfl
  have hstart : framebufferStart = 59904 := rfl
  have hfits := hp.fits
  have htop := hp.top
  have hlt := hi.2
  refine hkeeps.ram i fun hwrote => ?_
  rcases hwrote with hstore | hpixel
  · have hown := (hkeeps.layout.segment i).mp (hclean _ hstore)
    have h₁ := hown.1
    have h₂ := hown.2
    have h₃ := hi.1
    unfold Apart Process.range at hapart
    dsimp only at hapart
    omega
  · have := (hclean _ hpixel).1
    omega

/-- What is promised of a process: it has touched only its own, which is in RAM, and the
other processes are as they were. -/
structure Isolated (others : List Process) (m₀ m : Machine) : Prop where
  clean : Clean m
  inRam : ∀ a ∈ m.touched, a.address < ramSize
  others : ∀ q ∈ others, ∀ i, q.Segment i → m.ram i = m₀.ram i

theorem Stays.isolated {others : List Process} {m₀ m m' : Machine} {codeSize : Nat} (h : Stays m m')
    (hclean : Clean m) (hkeeps : m₀.Keeps m') (hl : Loaded codeSize m.proc)
    (hothers : ∀ q ∈ others, (∃ size, Loaded size q) ∧ Apart m₀.proc.range q.range) :
    Isolated others m₀ m' where
  clean := h.clean hclean
  inRam a ha := (h.layout.loaded hl).allows_lt (h.clean hclean a ha)
  others q hq i hi := by
    obtain ⟨⟨size, hlq⟩, hapart⟩ := hothers q hq
    exact (h.clean hclean).others hkeeps hlq hapart hi

/-- The other processes of a session are laid out and apart from this one. -/
theorem Session.others {vm : VM} {before after : List Process} {proc : Process}
    (hs : Session vm (before ++ proc :: after)) :
    (∃ size, Loaded size proc) ∧
      ∀ q ∈ before ++ after, (∃ size, Loaded size q) ∧ Apart proc.range q.range := by
  have hsound := hs.sound
  have hapart : (ranges vm.freeList (before ++ proc :: after)).Pairwise Apart := hsound.apart
  refine ⟨hsound.loaded proc (by simp), fun q hq => ⟨hsound.loaded q ?_, ?_⟩⟩
  · rcases List.mem_append.mp hq with hq | hq <;> simp [hq]
  · have hprocs := (List.pairwise_append.mp hapart).1
    rw [List.map_append, List.map_cons] at hprocs
    obtain ⟨_, htail, hcross⟩ := List.pairwise_append.mp hprocs
    rcases List.mem_append.mp hq with hq | hq
    · exact (hcross _ (List.mem_map_of_mem hq) _ (List.mem_cons_self ..)).symm
    · exact (List.pairwise_cons.mp htail).1 _ (List.mem_map_of_mem hq)

/-- **A process that takes care is isolated.** In every session, along every run of a
process whose turns are confined, and whatever the next confined turn comes to, the
process touches its own segment, the pixels and the GUI flag only, and no byte of
another process changes. -/
theorem isolation {vm : VM} {before after : List Process} {proc : Process}
    (hs : Session vm (before ++ proc :: after)) (cin : Stdin) (handle : Window) (events : List WindowEvent)
    {n : Nat} {m : Machine} (hc : Machine.system.Within Confined n (.boot vm proc cin handle events))
    (hrun : Machine.system.after n (.boot vm proc cin handle events) = some m) :
    Isolated (before ++ after) (.boot vm proc cin handle events) m ∧
      (m.goesOn = true → Confined m → Ensures step
        (fun _ => Isolated (before ++ after) (.boot vm proc cin handle events))
        (fun _ => Isolated (before ++ after) (.boot vm proc cin handle events)) m) := by
  obtain ⟨⟨size, hl⟩, hothers⟩ := hs.others
  have hkeeps := Machine.keeps_reaches ⟨n, hrun⟩
  have hlm : Loaded size m.proc := hkeeps.layout.loaded hl
  have hclean : Clean m := by
    refine (hc.invariant (I := fun m => (∃ size, Loaded size m.proc) ∧ Clean m) ?_ hrun
      ⟨⟨size, hl⟩, fun a ha => by cases ha⟩).2
    intro m₁ m₂ hm₁ hconfined hnext
    obtain ⟨⟨size', hl'⟩, hclean⟩ := hm₁
    obtain ⟨hgo, hstep⟩ := Machine.next_ok hnext
    have hstays := (stays_step hl' hgo hconfined).ok hstep
    exact ⟨⟨size', hstays.layout.loaded hl'⟩, hstays.clean hclean⟩
  refine ⟨(Stays.refl m).isolated hclean hkeeps hlm hothers, fun hgo hconfined => ?_⟩
  refine ((stays_step hlm hgo hconfined).and (framed_step m)).mono (fun _ m' h => ?_) fun _ m' h => ?_
  · exact h.1.isolated hclean (hkeeps.trans h.2) hlm hothers
  · exact h.1.isolated hclean (hkeeps.trans h.2) hlm hothers

/-- `HALLOC A, 16` behind a program that is a `HALT` only. -/
def besideVM : VM := (freshVM [0, 2, 0xFF]).placed 2003 [⟨4011, 55892⟩] hallocSixteen

def besideProcess : Process := (freshVM [0, 2, 0xFF]).placedProcess 2003 hallocSixteen

def besideMachine : Machine := .boot besideVM besideProcess ⟨[], false⟩ .null []

theorem isolation_sixteen : ∃ m, besideMachine.next = .ok m ∧ m.ram 2011 = 0 ∧ m.ram 2012 = 16 ∧
    Isolated [freshProcess [0, 2, 0xFF]] besideMachine m := by
  have hload : VM.fresh.load [0, 2, 0xFF] = _ := load_fresh (by decide)
  have hbeside : (freshVM [0, 2, 0xFF]).load hallocSixteen = .ok (besideProcess, besideVM) :=
    load_placed (by decide) (by decide)
  have hcurrent : current besideMachine = .halloc ⟨.register, 1⟩ ⟨.number, 16⟩ := by decide
  have hinv : HeapInv besideMachine [⟨1000, false⟩] := heapInv_load (.load _ .fresh hload) hbeside _ _ _
  have hconfined : Confined besideMachine := by
    refine ⟨by decide, ?_⟩
    rw [hcurrent]
    exact ⟨.inl rfl, ⟨operandIn_register 1, fun h => by cases h⟩, hinv.heapIn⟩
  have hnext : besideMachine.next = .ok besideMachine.nextOr := Machine.nextOr_ok (by decide +kernel)
  have hwithin : Machine.system.Within Confined 1 besideMachine := by
    intro k hk t ht
    obtain rfl : k = 0 := by omega
    cases ht
    exact hconfined
  have hs : Session besideVM ([] ++ besideProcess :: [freshProcess [0, 2, 0xFF]]) :=
    .load hallocSixteen (.load _ .fresh hload) hbeside
  have hrun : Machine.system.after 1 besideMachine = some besideMachine.nextOr := System.after_succ_ok _ hnext 0
  exact ⟨_, hnext, by decide +kernel, by decide +kernel, (isolation hs ⟨[], false⟩ .null [] hwithin hrun).1⟩

/-- `MOV [2011], 7` in an image of 9 bytes. -/
def strayMov : List MemCell := [0, 2, 0x12, 4, 7, 0xDB, 0, 7, 0xFF]

/-- A fresh VM with it, and with a program behind it that is a `HALT` only. -/
def strayVM : VM := (freshVM strayMov).placed 2009 [⟨4012, 55891⟩] [0, 2, 0xFF]

def strayMachine : Machine := .boot strayVM (freshProcess strayMov) ⟨[], false⟩ .null []

/-- The first program overwrites the `HALT` of the second. -/
theorem isolation_broken :
    Session strayVM [(freshVM strayMov).placedProcess 2009 [0, 2, 0xFF], freshProcess strayMov] ∧
    ∃ m, strayMachine.next = .ok m ∧
    ¬ (freshProcess strayMov).Segment 2011 ∧
    ((freshVM strayMov).placedProcess 2009 [0, 2, 0xFF]).Segment 2011 ∧
    strayMachine.ram 2011 = 0xFF ∧ m.ram 2011 = 7 ∧ m.Wrote 2011 := by
  have hi : current strayMachine = .mov ⟨.indirectMem, 2011⟩ ⟨.number, 7⟩ := by decide
  have hl := ((Session.fresh).load_loaded (load_fresh (by decide) : VM.fresh.load strayMov = _)).1
  obtain ⟨t, ht⟩ := assign_run (m := fetched strayMachine) (v := 7)
    (⟨rfl, by decide⟩ : Denotes (fetched strayMachine) ⟨.indirectMem, 2011⟩ (.ram 2011))
  have hnext := Machine.next_ok_of_perform hl (m := strayMachine) (by decide) (by rw [hi]; exact ht)
  have hbefore : strayMachine.ram 2011 = 0xFF := by decide
  have hafter : (put (fetched strayMachine) 7 (.ram 2011)).ram 2011 = 7 := by simp [put]
  have hs : Session strayVM [(freshVM strayMov).placedProcess 2009 [0, 2, 0xFF], freshProcess strayMov] :=
    .load [0, 2, 0xFF] (.load strayMov .fresh (load_fresh (by decide))) (load_placed (by decide) (by decide))
  refine ⟨hs, _, hnext, by decide, by decide, hbefore, hafter, by_contra fun hnot => ?_⟩
  have hsame := (Machine.keeps_next hnext).ram 2011 hnot
  rw [hbefore] at hsame
  exact absurd (hafter.symm.trans hsame) (by decide)

end CustomIsaVm
