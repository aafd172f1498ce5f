import CustomIsaVm.Machine.Loader

/-! What operands denote.

`cellOf` is `resolve_writeable_arg` as a function of the machine, `Cell.value` and
`put` are reading and writing the cell it returns. The programs of `Exec` do the
same and record what they touch; the lemmas here say so, up to that record. -/
namespace CustomIsaVm.Exec
open Effect

/-- The machine with another record of accesses. -/
def recorded (m : Machine) (touched : List Access) : Machine := {m with touched := touched}

/-- The machine with other RAM contents. -/
def withRam (m : Machine) (ram : Nat → MemCell) : Machine := {m with ram := ram}

@[simp] theorem recorded_ram (m : Machine) (t : List Access) : (recorded m t).ram = m.ram := rfl

@[simp] theorem recorded_registers (m : Machine) (t : List Access) :
    (recorded m t).registers = m.registers := rfl

@[simp] theorem recorded_proc (m : Machine) (t : List Access) : (recorded m t).proc = m.proc := rfl

def Cell.value (m : Machine) : Cell → MemCell
  | .register r => m.registers r
  | .ram i => m.ram i

/-- A register, or a cell that RAM has. -/
def Cell.Exists : Cell → Prop
  | .register _ => True
  | .ram i => i < ramSize

instance : (c : Cell) → Decidable c.Exists
  | .register _ => .isTrue trivial
  | .ram i => inferInstanceAs (Decidable (i < ramSize))

def put (m : Machine) (v : MemCell) : Cell → Machine
  | .register r => {m with registers := Function.update m.registers r v}
  | .ram i => {m with ram := Function.update m.ram i v}

/-- The register an operand names, if it names one. -/
def registerOf (arg : MemAddr) : Option (Fin 5) :=
  if h : 1 ≤ arg.toNat ∧ arg.toNat ≤ 5 then some ⟨arg.toNat - 1, register_lt h⟩ else none

/-- The cell an operand denotes; `none` where resolving it throws or leaves the
defined behaviour. -/
def cellOf (m : Machine) (arg : RawArgument) : Option Cell :=
  match arg.type with
  | .register => (registerOf arg.value).map .register
  | .address | .indirectMem => some (.ram (arg.value + m.proc.firstSector).toNat)
  | .indirectLbl =>
    let addr := arg.value + m.proc.firstSector
    if addr.toNat + 1 < ramSize then
      some (.ram (m.proc.firstSector.toNat +
        (word (m.ram addr.toNat) (m.ram (addr.toNat + 1))).toNat))
    else none
  | .indirectReg =>
    (registerOf arg.value).map fun r => .ram (m.proc.firstSector.toNat + (m.registers r).toNat)
  | .number | .number16 | .other _ => none

/-- An operand that denotes an existing cell. -/
structure Denotes (m : Machine) (arg : RawArgument) (c : Cell) : Prop where
  cell : cellOf m arg = some c
  live : c.Exists

variable {m : Machine} {arg : RawArgument} {c : Cell} {v : MemCell}

theorem load_run (access : Nat → Access) {i : Nat} (h : i < ramSize) :
    ∃ t, load access i m = .ok (m.ram i) (recorded m t) := ⟨_, load_ok h⟩

theorem load_again (access : Nat → Access) {i : Nat} (h : i < ramSize) (t : List Access) :
    ∃ u, load access i (recorded m t) = .ok (m.ram i) (recorded m u) := ⟨_, load_ok h⟩

theorem load_eq_ok {access : Nat → Access} {i : Nat} {m' : Machine} (h : load access i m = .ok v m') :
    v = m.ram i ∧ i < ramSize ∧ m' = recorded m (access i :: m.touched) := by
  unfold load at h
  split at h
  · cases h
    exact ⟨rfl, ‹_›, rfl⟩
  · cases h

theorem store_run (access : Nat → Access) {i : Nat} (h : i < ramSize) :
    ∃ t, store access i v m = .ok () (recorded (put m v (.ram i)) t) := ⟨_, store_ok h⟩

theorem store_eq_ok {access : Nat → Access} {i : Nat} {u : Unit} {m' : Machine}
    (h : store access i v m = .ok u m') :
    i < ramSize ∧ m' = recorded (put m v (.ram i)) (access i :: m.touched) := by
  unfold store at h
  split at h
  · cases h
    exact ⟨‹_›, rfl⟩
  · cases h

theorem raiseIf_run {p : Prop} [Decidable p] {e : Error} (h : ¬ p) : raiseIf p e m = .ok () m := by
  rw [raiseIf, if_neg h]
  rfl

theorem raiseIf_raises {p : Prop} [Decidable p] {e : Error} (h : p) :
    raiseIf p e m = .error (.throws e) m := by
  rw [raiseIf, if_pos h]
  rfl

theorem raiseIf_ok {p : Prop} [Decidable p] {e : Error} {u : Unit} {m' : Machine}
    (h : raiseIf p e m = .ok u m') : ¬ p ∧ m' = m := by
  unfold raiseIf at h
  split at h
  · cases h
  · cases h
    exact ⟨‹_›, rfl⟩

theorem registerIndex_run {arg : MemAddr} {r : Fin 5} (h : registerOf arg = some r) :
    registerIndex arg m = .ok r m := by
  unfold registerOf at h
  unfold registerIndex
  split at h
  · rename_i hr
    cases h
    rw [dif_pos hr]
    rfl
  · cases h

theorem registerIndex_ok {arg : MemAddr} {r : Fin 5} {m' : Machine}
    (h : registerIndex arg m = .ok r m') : registerOf arg = some r ∧ m' = m := by
  unfold registerIndex at h
  unfold registerOf
  split at h
  · rename_i hr
    cases h
    exact ⟨dif_pos hr, rfl⟩
  · cases h

theorem read_run (h : c.Exists) : ∃ t, c.read m = .ok (c.value m) (recorded m t) := by
  cases c with
  | register r => exact ⟨m.touched, rfl⟩
  | ram i => exact load_run _ h

theorem write_run (h : c.Exists) : ∃ t, c.write v m = .ok () (recorded (put m v c) t) := by
  cases c with
  | register r => exact ⟨m.touched, rfl⟩
  | ram i => exact store_run _ h

theorem resolve_run (h : cellOf m arg = some c) :
    ∃ t, resolveWriteableArg arg.type arg.value m = .ok c (recorded m t) := by
  obtain ⟨type, value⟩ := arg
  cases type with
  | register =>
    simp only [cellOf, Option.map_eq_some_iff] at h
    obtain ⟨r, hr, rfl⟩ := h
    exact ⟨m.touched, by rw [resolveWriteableArg, bind_ok (registerIndex_run hr)]; rfl⟩
  | address => cases h; exact ⟨m.touched, rfl⟩
  | indirectMem => cases h; exact ⟨m.touched, rfl⟩
  | indirectLbl =>
    simp only [cellOf] at h
    split at h
    · rename_i hlt
      cases h
      obtain ⟨t, ht⟩ := load_run (m := m) .load (by omega : (value + m.proc.firstSector).toNat < ramSize)
      obtain ⟨u, hu⟩ := load_run (m := recorded m t) .load hlt
      refine ⟨u, ?_⟩
      rw [resolveWriteableArg, bind_ok (get_run m), bind_ok ht, bind_ok hu]
      rfl
    · cases h
  | indirectReg =>
    simp only [cellOf, Option.map_eq_some_iff] at h
    obtain ⟨r, hr, rfl⟩ := h
    exact ⟨m.touched, by rw [resolveWriteableArg, bind_ok (registerIndex_run hr)]; rfl⟩
  | number => cases h
  | number16 => cases h
  | other b => cases h

theorem cellValue_run (h : Denotes m arg c) : ∃ t, cellValue arg m = .ok (c.value m) (recorded m t) := by
  obtain ⟨t, ht⟩ := resolve_run h.cell
  obtain ⟨u, hu⟩ := read_run (m := recorded m t) h.live
  exact ⟨u, by rw [cellValue, bind_ok ht, hu]; cases c <;> rfl⟩

/-- A word operand that is not immediate. -/
theorem wordValue_run {p : Prop} [Decidable p] (h : Denotes m arg c) (hp : ¬ p) :
    ∃ t, wordValue p arg m = .ok (c.value m).toUInt16 (recorded m t) := by
  obtain ⟨t, ht⟩ := cellValue_run h
  exact ⟨t, by rw [wordValue, if_neg hp, bind_ok ht]; rfl⟩

/-- `resolve_writeable_arg(..) = v`. -/
theorem assign_run (h : Denotes m arg c) :
    ∃ t, (do (← resolveWriteableArg arg.type arg.value).write v : Exec Unit) m =
      .ok () (recorded (put m v c) t) := by
  obtain ⟨t, ht⟩ := resolve_run h.cell
  obtain ⟨u, hu⟩ := write_run (m := recorded m t) (v := v) h.live
  exact ⟨u, by rw [bind_ok ht, hu]; cases c <;> rfl⟩

/-! ### What only reads -/

/-- The machine is as it was, up to the record of accesses. -/
def Records (m m' : Machine) : Prop := ∃ t, m' = recorded m t

instance : Std.Refl Records := ⟨fun m => ⟨m.touched, rfl⟩⟩

instance : IsTrans Machine Records := ⟨fun _ _ _ ⟨_, h⟩ ⟨u, k⟩ => ⟨u, by rw [k, h]; rfl⟩⟩

theorem records_load (access : Nat → Access) (i : Nat) : Respects Records (load access i) := by
  intro m
  rw [ensures_load]
  exact ⟨fun _ => ⟨_, rfl⟩, fun _ => ⟨_, rfl⟩⟩

theorem records_registerIndex (arg : MemAddr) : Respects Records (registerIndex arg) := by
  unfold registerIndex
  split
  · exact .pure _
  · exact .throw _

theorem records_resolveWriteableArg (type : ArgType) (arg : MemAddr) :
    Respects Records (resolveWriteableArg type arg) := by
  cases type with
  | register => exact .bind (records_registerIndex _) fun _ => .pure _
  | address => exact .bind .get fun _ => .pure _
  | indirectMem => exact .bind .get fun _ => .pure _
  | indirectLbl =>
    exact .bind .get fun _ => .bind (records_load _ _) fun _ => .bind (records_load _ _) fun _ =>
      .bind .get fun _ => .pure _
  | indirectReg =>
    exact .bind (records_registerIndex _) fun _ => .bind .get fun _ => .bind .get fun _ => .pure _
  | number => exact .throw _
  | number16 => exact .throw _
  | other b => exact .throw _

theorem records_read (c : Cell) : Respects Records c.read := by
  cases c with
  | register r => exact .bind .get fun _ => .pure _
  | ram i => exact records_load _ _

theorem records_cellValue (arg : RawArgument) : Respects Records (cellValue arg) :=
  .bind (records_resolveWriteableArg _ _) records_read

theorem records_operandValue (arg : RawArgument) : Respects Records (operandValue arg) :=
  .ite (.pure _) (records_cellValue arg)

theorem records_wordValue (c : Prop) [Decidable c] (arg : RawArgument) :
    Respects Records (wordValue c arg) :=
  .ite (.pure _) (.bind (records_cellValue arg) fun _ => .pure _)

/-! ### What a completed reading says -/

theorem resolve_eq_ok {m' : Machine} (h : resolveWriteableArg arg.type arg.value m = .ok c m') :
    cellOf m arg = some c ∧ ∃ t, m' = recorded m t := by
  refine ⟨?_, (records_resolveWriteableArg _ _).ok h⟩
  obtain ⟨type, value⟩ := arg
  cases type with
  | register =>
    obtain ⟨r, _, hr, hcell⟩ := bind_eq_ok.mp h
    obtain ⟨hreg, rfl⟩ := registerIndex_ok hr
    cases hcell
    exact congrArg (Option.map Cell.register) hreg
  | address => cases h; rfl
  | indirectMem => cases h; rfl
  | indirectLbl =>
    obtain ⟨_, _, hget, hbody⟩ := bind_eq_ok.mp h
    cases hget
    obtain ⟨high, m₁, hhigh, hbody⟩ := bind_eq_ok.mp hbody
    obtain ⟨low, m₂, hlow, hcell⟩ := bind_eq_ok.mp hbody
    cases hcell
    obtain ⟨rfl, _, rfl⟩ := load_eq_ok hhigh
    obtain ⟨rfl, hlt, rfl⟩ := load_eq_ok hlow
    exact if_pos hlt
  | indirectReg =>
    obtain ⟨r, _, hr, hcell⟩ := bind_eq_ok.mp h
    obtain ⟨hreg, rfl⟩ := registerIndex_ok hr
    cases hcell
    have hreg : registerOf value = some r := hreg
    simp only [cellOf, hreg, Option.map_some]
  | number => cases h
  | number16 => cases h
  | other b => cases h

theorem read_eq_ok {m' : Machine} (h : c.read m = .ok v m') : v = c.value m := by
  cases c with
  | register r => cases h; rfl
  | ram i => exact (load_eq_ok h).1

theorem cellValue_eq_ok {m' : Machine} (h : cellValue arg m = .ok v m') :
    ∃ c, cellOf m arg = some c ∧ v = c.value m ∧ ∃ t, m' = recorded m t := by
  obtain ⟨t, rfl⟩ := (records_cellValue arg).ok h
  obtain ⟨c, m₁, hc, hread⟩ := bind_eq_ok.mp h
  obtain ⟨hcell, u, rfl⟩ := resolve_eq_ok hc
  refine ⟨c, hcell, ?_, t, rfl⟩
  rw [read_eq_ok hread]
  cases c <;> rfl

/-- Two bytes read as a word. -/
theorem loadWord_eq_ok {access : Nat → Access} {i : Nat} {w : MemAddr} {m' : Machine}
    (h : (do return word (← load access i) (← load access (i + 1)) : Exec MemAddr) m = .ok w m') :
    w = word (m.ram i) (m.ram (i + 1)) ∧ ∃ t, m' = recorded m t := by
  obtain ⟨high, m₁, hhigh, hbody⟩ := bind_eq_ok.mp h
  obtain ⟨low, m₂, hlow, hw⟩ := bind_eq_ok.mp hbody
  cases hw
  obtain ⟨rfl, _, rfl⟩ := load_eq_ok hhigh
  obtain ⟨rfl, _, rfl⟩ := load_eq_ok hlow
  exact ⟨rfl, _, rfl⟩

theorem getGui_eq_ok {gui : Bool} {m' : Machine} (h : getGui m = .ok gui m') :
    gui = m.getGui ∧ ∃ t, m' = recorded m t := by
  obtain ⟨v, m₁, hv, hgui⟩ := bind_eq_ok.mp h
  cases hgui
  obtain ⟨rfl, -, rfl⟩ := load_eq_ok hv
  exact ⟨rfl, _, rfl⟩

theorem wordValue_eq_ok {p : Prop} [Decidable p] {w : MemAddr} {m' : Machine}
    (h : wordValue p arg m = .ok w m') :
    (if p then some arg.value else (cellOf m arg).map fun c => (c.value m).toUInt16) = some w := by
  unfold wordValue at h
  split at h
  · cases h
    exact if_pos ‹_›
  · obtain ⟨v, m₂, hv, hw⟩ := bind_eq_ok.mp h
    cases hw
    obtain ⟨c, hcell, rfl, _⟩ := cellValue_eq_ok hv
    rw [if_neg ‹_›, hcell]
    rfl

end CustomIsaVm.Exec
