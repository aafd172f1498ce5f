import CustomIsaVm.Machine.Isolation

/-! The bound of `FBSET`.

`FBSET` reads the pixel index from a literal, from two registers or from two bytes of
RAM, and is to refuse an index past the framebuffer. The bound is checked on the
operand's own value, which is the index only where the operand is a number: for the
others it is the number of a register, or an address. `SetsPixel` is what the
instruction owes; it does exactly where the value and the index are on the same side
of the bound (`fbset_bound`). -/
namespace CustomIsaVm
open Effect Exec

/-! ### What the operands denote -/

/-- The kinds of operand `FBSET` takes a pixel index from. -/
def ArgType.indexes : ArgType → Bool
  | .number | .number16 | .register | .indirectReg | .indirectMem | .address => true
  | .indirectLbl | .other _ => false

/-- The operand denotes a pixel index: its kind is supported, the registers it names
exist, and so do the bytes of RAM it is read from. -/
structure DenotesPixel (m : Machine) (index : RawArgument) (i : MemAddr) : Prop where
  kind : index.type.indexes = true
  denoted : pixelOf m index = some i
  cells : ∀ j ∈ indexCells m index, j < ramSize

/-- The operand resolves to a byte. -/
def Delivers (m : Machine) (arg : RawArgument) (v : MemCell) : Prop :=
  (arg.type = .number ∧ v = arg.value.toUInt8) ∨ ∃ c, Denotes m arg c ∧ v = c.value m

variable {m : Machine} {index color : RawArgument} {i : MemAddr} {v : MemCell}

/-- It depends on RAM, the registers and the base of the process. -/
theorem Delivers.congr {m' : Machine} {arg : RawArgument} (h : Delivers m arg v) (hram : m'.ram = m.ram)
    (hregisters : m'.registers = m.registers) (hbase : m'.proc.firstSector = m.proc.firstSector) :
    Delivers m' arg v := by
  rcases h with hnumber | ⟨c, hc, rfl⟩
  · exact .inl hnumber
  · refine .inr ⟨c, ⟨?_, hc.live⟩, ?_⟩
    · rw [← hc.cell]
      simp only [cellOf, hram, hregisters, hbase]
    · cases c with
      | register r => exact (congrFun hregisters r).symm
      | ram j => exact (congrFun hram j).symm

namespace Exec

theorem operandValue_run {arg : RawArgument} (h : Delivers m arg v) :
    ∃ t, operandValue arg m = .ok v (recorded m t) := by
  rcases h with ⟨hnumber, rfl⟩ | ⟨c, hc, rfl⟩
  · exact ⟨m.touched, by rw [operandValue, if_pos hnumber]; rfl⟩
  · have hcell : arg.type ≠ .number := by
      intro htype
      have := hc.cell
      rw [cellOf, htype] at this
      cases this
    rw [operandValue, if_neg hcell]
    exact cellValue_run hc

theorem loadWord_run {a : Nat} (access : Nat → Access) (ha : a < ramSize) (hb : a + 1 < ramSize) :
    ∃ t, (do return word (← load access a) (← load access (a + 1)) : Exec MemAddr) m =
      .ok (word (m.ram a) (m.ram (a + 1))) (recorded m t) := by
  obtain ⟨t, ht⟩ := load_run (m := m) access ha
  obtain ⟨u, hu⟩ := load_again (m := m) access hb t
  exact ⟨u, by rw [bind_ok ht, bind_ok hu]; rfl⟩

theorem getGui_run : ∃ t, getGui m = .ok m.getGui (recorded m t) := by
  obtain ⟨t, ht⟩ := load_run (m := m) .flag (show guiFlag < ramSize by decide)
  exact ⟨t, by rw [getGui, bind_ok ht]; rfl⟩

theorem denotes_register {value : MemAddr} {r : Fin 5} (h : registerOf value = some r) :
    Denotes m ⟨.register, value⟩ (.register r) :=
  ⟨by simp only [cellOf, h, Option.map_some], trivial⟩

/-- The index is read, whatever its kind. -/
theorem pixelIndex_run (h : DenotesPixel m index i) : ∃ t, pixelIndex index m = .ok i (recorded m t) := by
  obtain ⟨type, value⟩ := index
  obtain ⟨hkind, hindex, hcells⟩ := h
  cases type with
  | number => cases hindex; exact ⟨m.touched, rfl⟩
  | number16 => cases hindex; exact ⟨m.touched, rfl⟩
  | register =>
    simp only [pixelOf] at hindex
    cases hhi : registerOf value with
    | none => rw [hhi] at hindex; cases hindex
    | some hi =>
      cases hlo : registerOf (value + 1) with
      | none => rw [hhi, hlo] at hindex; cases hindex
      | some lo =>
        rw [hhi, hlo] at hindex
        cases hindex
        obtain ⟨t, ht⟩ := cellValue_run (m := m) (denotes_register hhi)
        obtain ⟨u, hu⟩ := cellValue_run (m := recorded m t) (denotes_register hlo)
        exact ⟨u, (bind_ok ht).trans (bind_ok hu)⟩
  | indirectReg =>
    simp only [pixelOf, indexCells] at hindex
    cases hreg : registerOf value with
    | none => rw [hreg] at hindex; cases hindex
    | some r =>
      rw [hreg] at hindex
      cases hindex
      simp only [indexCells, hreg, List.mem_cons, List.not_mem_nil, or_false, forall_eq_or_imp,
        forall_eq] at hcells
      obtain ⟨t, ht⟩ := loadWord_run (m := m) .load hcells.1 hcells.2
      exact ⟨t, (bind_ok (registerIndex_run hreg)).trans ht⟩
  | indirectMem =>
    cases hindex
    exact loadWord_run .load (hcells _ (by simp [indexCells])) (hcells _ (by simp [indexCells]))
  | address =>
    cases hindex
    exact loadWord_run .load (hcells _ (by simp [indexCells])) (hcells _ (by simp [indexCells]))
  | indirectLbl => cases hkind
  | other b => cases hkind

/-- In GUI mode, with operands that can be read, all that is left is the check and the
store. -/
theorem fbset_checks (hgui : m.getGui = true) (hindex : DenotesPixel m index i)
    (hcolor : Delivers m color v) : ∃ t, fbset index color m =
      (do raiseIf (VMconf.framebufferTotSize ≤ index.value.toNat) .framebufferOverflow
          store .pixel (framebufferStart + i.toNat) v) (recorded m t) := by
  have hkind : index.type ≠ .indirectLbl := by
    intro htype
    have := hindex.kind
    rw [htype] at this
    cases this
  obtain ⟨t, ht⟩ := getGui_run (m := m)
  obtain ⟨u, hu⟩ := pixelIndex_run (m := recorded m t) (i := i) ⟨hindex.kind, hindex.denoted, hindex.cells⟩
  obtain ⟨w, hw⟩ := operandValue_run (m := recorded m u) (hcolor.congr rfl rfl rfl)
  refine ⟨w, ?_⟩
  rw [fbset, bind_ok (raiseIf_run hkind), bind_ok ht, bind_ok (raiseIf_run (not_not.mpr hgui)), bind_ok hu]
  exact bind_ok hw

end Exec

/-! ### What FBSET owes -/

/-- The turn throws and leaves RAM as it is exactly for an index past the framebuffer;
otherwise it changes the one cell of the pixel to the colour. -/
structure SetsPixel (m : Machine) (i : MemAddr) (v : MemCell) : Prop where
  overflow : (∃ m', step m = .error (.throws .framebufferOverflow) m' ∧ m'.ram = m.ram) ↔
    VMconf.framebufferTotSize ≤ i.toNat
  sets : i.toNat < VMconf.framebufferTotSize →
    ∃ m', step m = .ok () m' ∧ m'.ram = Function.update m.ram (framebufferStart + i.toNat) v

/-- A turn at `FBSET` throws for a value past the bound, and else stores. -/
theorem fbset_step {size : Nat} (hl : Loaded size m.proc) (hgo : m.goesOn = true)
    (hat : current m = .fbset index color) (hgui : m.getGui = true) (hindex : DenotesPixel m index i)
    (hcolor : Delivers m color v) :
    (VMconf.framebufferTotSize ≤ index.value.toNat →
      ∃ t, step m = .error (.throws .framebufferOverflow) (recorded (fetched m) t)) ∧
    (index.value.toNat < VMconf.framebufferTotSize → ∃ t, step m =
      (do store .pixel (framebufferStart + i.toNat) v
          modify fun m => {m with row := m.row + 1} : Exec Unit) (recorded (fetched m) t)) := by
  obtain ⟨t, ht⟩ := fbset_checks (m := fetched m) hgui ⟨hindex.kind, hindex.denoted, hindex.cells⟩
    (hcolor.congr rfl rfl rfl)
  rw [Machine.step_fetched hl hgo, hat]
  refine ⟨fun hlarge => ⟨t, ?_⟩, fun hsmall => ⟨t, ?_⟩⟩
  · refine bind_error ?_
    rw [show perform (.fbset index color) = fbset index color from rfl, ht]
    exact bind_error (raiseIf_raises hlarge)
  · have hstored : fbset index color (fetched m) =
        store .pixel (framebufferStart + i.toNat) v (recorded (fetched m) t) := by
      rw [ht, bind_ok (raiseIf_run (by omega))]
    rw [complete, show perform (.fbset index color) = fbset index color from rfl, bind_run, bind_run, hstored]

/-- A turn at `FBSET` does what it owes exactly where the operand's value and the index
it denotes are on the same side of the bound. -/
theorem sets_pixel_iff {size : Nat} (hl : Loaded size m.proc) (hgo : m.goesOn = true)
    (hat : current m = .fbset index color) (hgui : m.getGui = true) (hindex : DenotesPixel m index i)
    (hcolor : Delivers m color v) : SetsPixel m i v ↔
      (index.value.toNat < VMconf.framebufferTotSize ↔ i.toNat < VMconf.framebufferTotSize) := by
  have hram : framebufferStart + VMconf.framebufferTotSize = ramSize := rfl
  obtain ⟨hthrows, hstores⟩ := fbset_step hl hgo hat hgui hindex hcolor
  by_cases hlarge : VMconf.framebufferTotSize ≤ index.value.toNat
  · obtain ⟨t, ht⟩ := hthrows hlarge
    have hraised : ∃ m', step m = .error (.throws .framebufferOverflow) m' ∧ m'.ram = m.ram := ⟨_, ht, rfl⟩
    constructor
    · intro h
      have := h.overflow.mp hraised
      omega
    · intro h
      exact ⟨iff_of_true hraised (by omega), fun hi => absurd (h.mpr hi) (by omega)⟩
  · obtain ⟨t, ht⟩ := hstores (by omega)
    by_cases hi : i.toNat < VMconf.framebufferTotSize
    · obtain ⟨u, hu⟩ := store_run (m := recorded (fetched m) t) (v := v) .pixel
        (show framebufferStart + i.toNat < ramSize by omega)
      rw [bind_ok hu] at ht
      refine iff_of_true ⟨iff_of_false ?_ (by omega), fun _ => ⟨_, ht, rfl⟩⟩ (by omega)
      rintro ⟨m', herror, -⟩
      rw [ht] at herror
      cases herror
    · -- the store is past the end of RAM, where nothing is defined
      have hundefined : step m = .error .undefined
          (recorded (fetched m) (.pixel (framebufferStart + i.toNat) :: t)) := by
        rw [ht]
        exact bind_error (by rw [store, if_neg (by omega)]; rfl)
      refine iff_of_false (fun h => ?_) (by omega)
      obtain ⟨m', herror, -⟩ := h.overflow.mpr (by omega)
      rw [hundefined] at herror
      cases herror

/-- **FBSET keeps the bound exactly where the operand's value and the index agree about
it**, in every reachable state of every process of a session; a number is its index. -/
theorem fbset_bound {vm : VM} {before after : List Process} {proc : Process}
    (hs : Session vm (before ++ proc :: after)) {cin : Stdin} {handle : Window} {events : List WindowEvent}
    {m : Machine} (hrun : Machine.system.Reaches (.boot vm proc cin handle events) m)
    (hgo : m.goesOn = true) {index color : RawArgument} (hat : current m = .fbset index color)
    (hgui : m.getGui = true) {i : MemAddr} {v : MemCell} (hindex : DenotesPixel m index i)
    (hcolor : Delivers m color v) :
    (SetsPixel m i v ↔
      (index.value.toNat < VMconf.framebufferTotSize ↔ i.toNat < VMconf.framebufferTotSize)) ∧
    (index.type = .number ∨ index.type = .number16 → SetsPixel m i v) := by
  obtain ⟨⟨size, hl⟩, -⟩ := hs.others
  have hlm : Loaded size m.proc := (Machine.keeps_reaches hrun).layout.loaded hl
  have hiff := sets_pixel_iff hlm hgo hat hgui hindex hcolor
  refine ⟨hiff, fun hnumber => hiff.mpr ?_⟩
  have hvalue := hindex.denoted
  obtain ⟨type, value⟩ := index
  obtain rfl : value = i := by
    rcases hnumber with rfl | rfl
    · exact Option.some.inj hvalue
    · exact Option.some.inj hvalue
  exact Iff.rfl

/-- A process on a fresh VM in GUI mode. -/
def guiMachine (bytecode : List MemCell) : Machine :=
  .boot ((freshVM bytecode).setGui true) (freshProcess bytecode) ⟨[], false⟩ .null []

theorem guiMachine_gui (bytecode : List MemCell) : (guiMachine bytecode).getGui = true := by
  simp [guiMachine, Machine.boot, VM.getGui, VM.setGui]

theorem guiMachine_session {bytecode : List MemCell} (h : bytecode.length + 2000 ≤ guiFlag) :
    Session ((freshVM bytecode).setGui true) ([] ++ freshProcess bytecode :: []) :=
  .setGui true (.load bytecode .fresh (load_fresh h))

theorem guiMachine_loaded {bytecode : List MemCell} (h : bytecode.length + 2000 ≤ guiFlag) :
    Loaded bytecode.length (guiMachine bytecode).proc :=
  (Session.fresh.load_loaded (load_fresh h)).1

/-- `FBSET 5, 7`. -/
def fbsetNumber : List MemCell := [0, 2, 0xD2, 0, 5, 0, 7, 0xFF]

theorem fbset_bound_number : SetsPixel (guiMachine fbsetNumber) 5 7 :=
  (fbset_bound (guiMachine_session (by decide)) (.refl _) (by decide)
    (show current (guiMachine fbsetNumber) = .fbset ⟨.number, 5⟩ ⟨.number, 7⟩ by decide)
    (guiMachine_gui _) ⟨rfl, rfl, by simp [indexCells]⟩ (.inl ⟨rfl, rfl⟩)).2 (.inl rfl)

/-- `FBSET [2], 7`: the bytes at 2 are the instruction's own. -/
def fbsetPast : List MemCell := [0, 2, 0xD2, 4, 0, 2, 0, 7, 0xFF]

/-- `FBSET [5000], 7`: the bytes at 5000 are 0. -/
def fbsetRefused : List MemCell := [0, 2, 0xD2, 4, 0x13, 0x88, 0, 7, 0xFF]

/-- Index 53764 is not refused, and index 0 is. -/
theorem fbset_unbounded :
    Session ((freshVM fbsetPast).setGui true) ([] ++ freshProcess fbsetPast :: []) ∧
    current (guiMachine fbsetPast) = .fbset ⟨.indirectMem, 2⟩ ⟨.number, 7⟩ ∧
    DenotesPixel (guiMachine fbsetPast) ⟨.indirectMem, 2⟩ 53764 ∧
    ¬ SetsPixel (guiMachine fbsetPast) 53764 7 ∧
    Session ((freshVM fbsetRefused).setGui true) ([] ++ freshProcess fbsetRefused :: []) ∧
    current (guiMachine fbsetRefused) = .fbset ⟨.indirectMem, 5000⟩ ⟨.number, 7⟩ ∧
    DenotesPixel (guiMachine fbsetRefused) ⟨.indirectMem, 5000⟩ 0 ∧
    ¬ SetsPixel (guiMachine fbsetRefused) 0 7 := by
  have hpast : DenotesPixel (guiMachine fbsetPast) ⟨.indirectMem, 2⟩ 53764 :=
    ⟨rfl, by decide, by decide⟩
  have hrefused : DenotesPixel (guiMachine fbsetRefused) ⟨.indirectMem, 5000⟩ 0 :=
    ⟨rfl, by decide, by decide⟩
  have hatPast : current (guiMachine fbsetPast) = .fbset ⟨.indirectMem, 2⟩ ⟨.number, 7⟩ := by decide
  have hatRefused : current (guiMachine fbsetRefused) = .fbset ⟨.indirectMem, 5000⟩ ⟨.number, 7⟩ := by
    decide
  refine ⟨guiMachine_session (by decide), hatPast, hpast, fun h => ?_,
    guiMachine_session (by decide), hatRefused, hrefused, fun h => ?_⟩
  · have := (sets_pixel_iff (guiMachine_loaded (by decide)) (by decide) hatPast (guiMachine_gui _) hpast
      (.inl ⟨rfl, rfl⟩)).mp h
    exact absurd (this.mp (by decide)) (by decide)
  · have := (sets_pixel_iff (guiMachine_loaded (by decide)) (by decide) hatRefused (guiMachine_gui _) hrefused
      (.inl ⟨rfl, rfl⟩)).mp h
    exact absurd (this.mpr (by decide)) (by decide)

end CustomIsaVm
