import CustomIsaVm.Brainfvck.Image
import CustomIsaVm.Machine.Stack

/-! Items on the machine.

`Shows s m`: the registers A, B and C, the 256 cells from the first sector on and the
streams of the machine `m` are those of the code state `s`. Each instruction of an item
takes the machine from one state to the next (`perform_op` and those after it), writing
to those cells only (`OnTape`). -/
namespace CustomIsaVm.Brainfvck
open Effect Exec

/-! ### What the machine shows -/

/-- The cells that a pointer of one byte can name. -/
def Tape (p : Process) (i : Nat) : Prop := p.firstSector.toNat ≤ i ∧ i ≤ p.firstSector.toNat + 255

structure Shows (s : Code) (m : Machine) : Prop where
  a : m.registers 0 = s.a
  b : m.registers 1 = s.b
  c : m.registers 2 = s.c
  mem : ∀ x : MemCell, m.ram (m.proc.firstSector.toNat + x.toNat) = s.mem x
  cin : m.cin = s.cin
  cout : m.cout = s.cout

/-- The process stays but for PC and the running flag, SP included, and only the tape is
written. -/
structure OnTape (m m' : Machine) : Prop where
  proc : {m'.proc with pc := m.proc.pc, running := m.proc.running} = m.proc
  window : m'.window = m.window
  ram : ∀ i, ¬ Tape m.proc i → m'.ram i = m.ram i
  wrote : ∀ i, m'.Wrote i → m.Wrote i ∨ Tape m.proc i

namespace OnTape
variable {m m' m'' : Machine}

theorem firstSector (h : OnTape m m') : m'.proc.firstSector = m.proc.firstSector := by rw [← h.proc]

theorem sp (h : OnTape m m') : m'.proc.sp = m.proc.sp := by rw [← h.proc]

theorem tape (h : OnTape m m') (i : Nat) : Tape m'.proc i ↔ Tape m.proc i := by
  unfold Tape
  rw [h.firstSector]

theorem refl (m : Machine) : OnTape m m := ⟨rfl, rfl, fun _ _ => rfl, fun _ => .inl⟩

theorem trans (h : OnTape m m') (k : OnTape m' m'') : OnTape m m'' := by
  refine ⟨?_, k.window.trans h.window, fun i hi => ?_, fun i hi => ?_⟩
  · have hproc := congrArg (fun p : Process => {p with pc := m.proc.pc, running := m.proc.running}) k.proc
    exact hproc.trans h.proc
  · rw [k.ram i (by rwa [h.tape]), h.ram i hi]
  · rcases k.wrote i hi with hw | ht
    · exact h.wrote i hw
    · exact .inr ((h.tape i).mp ht)

end OnTape

/-- A part of an instruction has done its work: the machine shows `s`. -/
structure Does (s : Code) (m m' : Machine) : Prop where
  shows : Shows s m'
  onTape : OnTape m m'
  proc : m'.proc = m.proc

namespace Does
variable {s s' : Code} {m m' m'' : Machine}

theorem refl (h : Shows s m) : Does s m m := ⟨h, .refl m, rfl⟩

theorem trans (h : Does s m m') (k : Does s' m' m'') : Does s' m m'' :=
  ⟨k.shows, h.onTape.trans k.onTape, k.proc.trans h.proc⟩

end Does

/-! ### Operands -/

def Place.operand : Place → RawArgument
  | a => ⟨.register, 1⟩
  | b => ⟨.register, 2⟩
  | c => ⟨.register, 3⟩
  | cell => ⟨.indirectReg, 1⟩

/-- The operand of a source; its literal is of one byte. -/
def Source.operand : Source → RawArgument
  | place p => p.operand
  | num v => ⟨.number, (UInt8.ofInt v).toUInt16⟩

/-- The cell of the machine that a place is. -/
def Place.on (m : Machine) : Place → Cell
  | a => .register 0
  | b => .register 1
  | c => .register 2
  | cell => .ram (m.proc.firstSector.toNat + (m.registers 0).toNat)

section Parts
variable {s : Code} {m : Machine}

theorem resolve_place (p : Place) (m : Machine) :
    resolveWriteableArg p.operand.type p.operand.value m = .ok (p.on m) m := by
  cases p <;> rfl

theorem read_place (h : Shows s m) (hfits : m.proc.firstSector.toNat + 255 < ramSize) (p : Place) :
    Ensures (p.on m).read (fun v m' => v = s.get p ∧ Does s m m') (fun _ _ => False) m := by
  cases p with
  | a => exact ⟨h.a, .refl h⟩
  | b => exact ⟨h.b, .refl h⟩
  | c => exact ⟨h.c, .refl h⟩
  | cell =>
    have hlt := (m.registers 0).toNat_lt
    show Ensures (load .load (m.proc.firstSector.toNat + (m.registers 0).toNat)) _ _ m
    rw [ensures_load]
    refine ⟨fun _ => ⟨?_, ⟨h.a, h.b, h.c, h.mem, h.cin, h.cout⟩, ⟨rfl, rfl, fun _ _ => rfl, fun i hi => ?_⟩, rfl⟩,
      fun hnot => hnot (by omega)⟩
    · rw [h.mem, h.a]
      rfl
    · left
      simpa [Machine.Wrote] using hi

theorem value_source (h : Shows s m) (hfits : m.proc.firstSector.toNat + 255 < ramSize) (src : Source) :
    Ensures (operandValue src.operand) (fun v m' => v = s.value src ∧ Does s m m') (fun _ _ => False) m := by
  cases src with
  | place p =>
    have hplace : p.operand.type ≠ .number := by cases p <;> nofun
    show Ensures (operandValue p.operand) _ _ m
    rw [operandValue, if_neg hplace, cellValue, ensures_bind, ensures_of_ok (resolve_place p m)]
    exact read_place h hfits p
  | num v =>
    refine ⟨?_, .refl h⟩
    show (UInt8.ofInt v).toUInt16.toUInt8 = UInt8.ofInt v
    simp

theorem write_place (h : Shows s m) (hfits : m.proc.firstSector.toNat + 255 < ramSize) (p : Place)
    (v : MemCell) : Ensures ((p.on m).write v) (fun _ => Does (s.set v p) m) (fun _ _ => False) m := by
  have hreg : ∀ r : Fin 5, Ensures ((Cell.register r).write v) (fun _ m' =>
      m' = {m with registers := Function.update m.registers r v}) (fun _ _ => False) m := fun _ => rfl
  cases p with
  | a =>
    refine (hreg 0).mono (fun _ m' hm' => ?_) fun _ _ => id
    subst hm'
    exact ⟨⟨rfl, h.b, h.c, h.mem, h.cin, h.cout⟩, ⟨rfl, rfl, fun _ _ => rfl, fun _ => .inl⟩, rfl⟩
  | b =>
    refine (hreg 1).mono (fun _ m' hm' => ?_) fun _ _ => id
    subst hm'
    exact ⟨⟨h.a, rfl, h.c, h.mem, h.cin, h.cout⟩, ⟨rfl, rfl, fun _ _ => rfl, fun _ => .inl⟩, rfl⟩
  | c =>
    refine (hreg 2).mono (fun _ m' hm' => ?_) fun _ _ => id
    subst hm'
    exact ⟨⟨h.a, h.b, rfl, h.mem, h.cin, h.cout⟩, ⟨rfl, rfl, fun _ _ => rfl, fun _ => .inl⟩, rfl⟩
  | cell =>
    have hlt := (m.registers 0).toNat_lt
    show Ensures (store .store (m.proc.firstSector.toNat + (m.registers 0).toNat) v) _ _ m
    rw [ensures_store]
    refine ⟨fun _ => ⟨⟨h.a, h.b, h.c, fun x => ?_, h.cin, h.cout⟩, ⟨rfl, rfl, fun i hi => ?_, fun i hi => ?_⟩, rfl⟩,
      fun hnot => hnot (by omega)⟩
    · show Function.update m.ram _ v _ = Function.update s.mem s.a v x
      by_cases hx : x = s.a
      · rw [hx, h.a, Function.update_self, Function.update_self]
      · have hne : m.proc.firstSector.toNat + x.toNat ≠
            m.proc.firstSector.toNat + (m.registers 0).toNat := by
          rw [h.a]
          intro heq
          exact hx (UInt8.toNat_inj.mp (by omega))
        rw [Function.update_of_ne hne, Function.update_of_ne hx, h.mem]
    · refine Function.update_of_ne ?_ v m.ram
      rintro rfl
      exact hi ⟨Nat.le_add_right .., by omega⟩
    · rcases hi with hi | hi
      · rcases List.mem_cons.mp hi with heq | hi
        · cases heq
          exact .inr ⟨Nat.le_add_right .., by omega⟩
        · exact .inl (.inl hi)
      · rcases List.mem_cons.mp hi with heq | hi
        · cases heq
        · exact .inl (.inr hi)

theorem Does.on {m' : Machine} (h : Does s m m') (hs : Shows s m) (p : Place) : p.on m' = p.on m := by
  cases p with
  | a => rfl
  | b => rfl
  | c => rfl
  | cell => rw [Place.on, Place.on, h.proc, h.shows.a, hs.a]

/-! ### Instructions -/

def Operation.instruction : Operation → RawArgument → RawArgument → Instruction
  | mov => .mov
  | add => .add
  | sub => .sub
  | mul => .mul

theorem update_place (h : Shows s m) (hfits : m.proc.firstSector.toNat + 255 < ramSize)
    (f : MemCell → MemCell → MemCell) (p : Place) (v : MemCell) :
    Ensures (updateCell f p.operand v) (fun _ => Does (s.set (f (s.get p) v) p) m) (fun _ _ => False) m := by
  rw [updateCell, ensures_bind, ensures_of_ok (resolve_place p m), ensures_bind]
  refine (read_place h hfits p).mono (fun w m' ⟨hw, hdoes⟩ => ?_) fun _ _ => id
  subst hw
  rw [← hdoes.on h]
  exact (write_place hdoes.shows (by rw [hdoes.proc]; exact hfits) p _).mono
    (fun _ _ hwrite => hdoes.trans hwrite) fun _ _ => id

theorem perform_op (h : Shows s m) (hfits : m.proc.firstSector.toNat + 255 < ramSize) (o : Operation)
    (d : Place) (src : Source) : Ensures (perform (o.instruction d.operand src.operand))
      (fun _ => Does (s.set (o.apply (s.get d) (s.value src)) d) m) (fun _ _ => False) m := by
  have hvalue := value_source h hfits src
  have hfits' : ∀ {m'}, Does s m m' → m'.proc.firstSector.toNat + 255 < ramSize := fun hdoes => by
    rw [hdoes.proc]
    exact hfits
  have hupdate : ∀ f : MemCell → MemCell → MemCell, Ensures (do updateCell f d.operand (← operandValue src.operand))
      (fun _ => Does (s.set (f (s.get d) (s.value src)) d) m) (fun _ _ => False) m := by
    intro f
    rw [ensures_bind]
    refine hvalue.mono (fun v m' ⟨hv, hdoes⟩ => ?_) fun _ _ => id
    subst hv
    exact (update_place hdoes.shows (hfits' hdoes) f d _).mono (fun _ _ h => hdoes.trans h) fun _ _ => id
  cases o with
  | mov =>
    show Ensures (do
      let v ← operandValue src.operand
      (← resolveWriteableArg d.operand.type d.operand.value).write v) _ _ m
    rw [ensures_bind]
    refine hvalue.mono (fun v m' ⟨hv, hdoes⟩ => ?_) fun _ _ => id
    subst hv
    rw [ensures_bind, ensures_of_ok (resolve_place d m')]
    exact (write_place hdoes.shows (hfits' hdoes) d _).mono (fun _ _ h => hdoes.trans h) fun _ _ => id
  | add => exact hupdate (· + ·)
  | sub => exact hupdate (· - ·)
  | mul => exact hupdate (· * ·)

theorem perform_print (h : Shows s m) (hfits : m.proc.firstSector.toNat + 255 < ramSize) :
    Ensures (perform (.print (Place.operand .cell))) (fun _ => Does s.print m) (fun _ _ => False) m := by
  show Ensures (do printed [← operandValue (Source.operand (.place .cell))]) _ _ m
  rw [ensures_bind]
  refine (value_source h hfits (.place .cell)).mono (fun v m' ⟨hv, hdoes⟩ => ?_) fun _ _ => id
  subst hv
  refine hdoes.trans ⟨⟨hdoes.shows.a, hdoes.shows.b, hdoes.shows.c, hdoes.shows.mem, hdoes.shows.cin, ?_⟩,
    ⟨rfl, rfl, fun _ _ => rfl, fun _ => .inl⟩, rfl⟩
  exact congrArg (· ++ _) hdoes.shows.cout

/-- Without a window, `INPUT` reads a number. -/
theorem value_input (h : Shows s m) (hgui : m.getGui = true → m.window = .null) :
    Ensures inputValue (fun v m' => v = UInt8.ofInt s.cin.extract.1 ∧ Does {s with cin := s.cin.extract.2} m m')
      (fun _ _ => False) m := by
  have hflag : guiFlag < ramSize := by decide
  have hextract : ∀ m' : Machine, Does s m m' → Ensures extractInput
      (fun v m'' => v = UInt8.ofInt s.cin.extract.1 ∧ Does {s with cin := s.cin.extract.2} m m'')
      (fun _ _ => False) m' := by
    intro m' hdoes
    obtain ⟨ha, hb, hc, hmem, hcin, hcout⟩ := hdoes.shows
    refine ⟨by rw [hcin], hdoes.trans ⟨⟨ha, hb, hc, hmem, ?_, hcout⟩, ⟨rfl, rfl, fun _ _ => rfl, fun _ => .inl⟩,
      rfl⟩⟩
    show m'.cin.extract.2 = s.cin.extract.2
    rw [hcin]
  rw [inputValue, ensures_bind, getGui, ensures_bind, ensures_load]
  refine ⟨fun _ => ?_, fun hnot => hnot hflag⟩
  have hloaded : Does s m {m with touched := Access.flag guiFlag :: m.touched} := by
    refine ⟨⟨h.a, h.b, h.c, h.mem, h.cin, h.cout⟩, ⟨rfl, rfl, fun _ _ => rfl, fun i hi => .inl ?_⟩, rfl⟩
    simpa [Machine.Wrote] using hi
  rw [ensures_pure, ensures_ite]
  refine ⟨fun hon => ?_, fun _ => hextract _ hloaded⟩
  have hnull : m.window = .null := hgui hon
  rw [ensures_bind, ensures_get]
  split
  · next hw => exact absurd (hnull.symm.trans hw) nofun
  · exact hextract _ hloaded
  · next hw => exact absurd (hnull.symm.trans hw) nofun

theorem perform_input (h : Shows s m) (hfits : m.proc.firstSector.toNat + 255 < ramSize)
    (hgui : m.getGui = true → m.window = .null) :
    Ensures (perform (.input (Place.operand .cell))) (fun _ => Does s.input m) (fun _ _ => False) m := by
  show Ensures (do
    let v ← inputValue
    (← resolveWriteableArg (Place.operand .cell).type (Place.operand .cell).value).write v) _ _ m
  rw [ensures_bind]
  refine (value_input h hgui).mono (fun v m' ⟨hv, hdoes⟩ => ?_) fun _ _ => id
  subst hv
  rw [ensures_bind, ensures_of_ok (resolve_place .cell m')]
  exact (write_place hdoes.shows (by rw [hdoes.proc]; exact hfits) .cell _).mono
    (fun _ _ h => hdoes.trans h) fun _ _ => id

/-- The comparison of a bracket sets the zero flag. -/
theorem perform_cmp (h : Shows s m) (hfits : m.proc.firstSector.toNat + 255 < ramSize) :
    Ensures (perform (.cmp (Place.operand .cell) (Source.operand (.num 0))))
      (fun _ m' => Does s m m' ∧ m'.zero = (s.get .cell == 0)) (fun _ _ => False) m := by
  show Ensures (do
    let v₁ ← operandValue (Source.operand (.place .cell))
    let v₂ ← operandValue (Source.operand (.num 0))
    modify fun m => {m with zero := v₁ == v₂, sign := decide (v₂ < v₁)}) _ _ m
  rw [ensures_bind]
  refine (value_source h hfits (.place .cell)).mono (fun v m' ⟨hv, hdoes⟩ => ?_) fun _ _ => id
  subst hv
  rw [ensures_bind]
  refine (value_source hdoes.shows (by rw [hdoes.proc]; exact hfits) (.num 0)).mono
    (fun w m'' ⟨hw, hdoes'⟩ => ?_) fun _ _ => id
  subst hw
  obtain ⟨ha, hb, hc, hmem, hcin, hcout⟩ := hdoes'.shows
  exact ⟨hdoes.trans (hdoes'.trans
    ⟨⟨ha, hb, hc, hmem, hcin, hcout⟩, ⟨rfl, rfl, fun _ _ => rfl, fun _ => .inl⟩, rfl⟩),
    rfl⟩

/-- A conditional jump to an address. -/
theorem perform_jump (condition : Bool → Bool → Bool) (addr : MemAddr) (m : Machine) :
    jumpIf condition ⟨.address, addr⟩ m = .ok () (if condition m.zero m.sign then
      {m with proc := {m.proc with pc := m.proc.firstSector + addr}} else m) := by
  rw [jumpIf, bind_ok (get_run m)]
  split <;> rfl

end Parts
end CustomIsaVm.Brainfvck
