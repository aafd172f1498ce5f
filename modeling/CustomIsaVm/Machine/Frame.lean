import CustomIsaVm.Lib.Effect
import CustomIsaVm.Machine.Exec

/-! What no instruction changes, and the run as a system.

`Keeps m m'` is a preorder every instruction respects, whether it completes or
not: the layout of the process, the books of the allocator and the window are fixed,
what was printed stays, accesses are only added to the record, and a RAM cell differs
only if the record says that it was written. With it the loop of `exec` is a `System`
(`Machine.system`). -/
namespace CustomIsaVm

/-- The members of a process that `exec` only reads. -/
structure Process.SameLayout (p q : Process) : Prop where
  pid : q.pid = p.pid
  firstSector : q.firstSector = p.firstSector
  lastCodeSector : q.lastCodeSector = p.lastCodeSector
  entryPoint : q.entryPoint = p.entryPoint
  allocatedMemory : q.allocatedMemory = p.allocatedMemory
  heapStart : q.heapStart = p.heapStart
  stackLimit : q.stackLimit = p.stackLimit
  heapLimit : q.heapLimit = p.heapLimit

theorem Process.SameLayout.refl (p : Process) : p.SameLayout p := ⟨rfl, rfl, rfl, rfl, rfl, rfl, rfl, rfl⟩

theorem Process.SameLayout.trans {p q r : Process} (h : p.SameLayout q) (k : q.SameLayout r) :
    p.SameLayout r :=
  ⟨k.pid.trans h.pid, k.firstSector.trans h.firstSector, k.lastCodeSector.trans h.lastCodeSector,
    k.entryPoint.trans h.entryPoint, k.allocatedMemory.trans h.allocatedMemory,
    k.heapStart.trans h.heapStart, k.stackLimit.trans h.stackLimit, k.heapLimit.trans h.heapLimit⟩

/-- The cell `i` was written on the way to `m`. -/
def Machine.Wrote (m : Machine) (i : Nat) : Prop := .store i ∈ m.touched ∨ .pixel i ∈ m.touched

structure Machine.Keeps (m m' : Machine) : Prop where
  layout : m.proc.SameLayout m'.proc
  freeList : m'.freeList = m.freeList
  nextReadyPid : m'.nextReadyPid = m.nextReadyPid
  window : m'.window = m.window
  cout : m.cout <+: m'.cout
  touched : m.touched <:+ m'.touched
  ram : ∀ i, ¬ m'.Wrote i → m'.ram i = m.ram i

namespace Machine.Keeps

theorem refl (m : Machine) : m.Keeps m :=
  ⟨.refl _, rfl, rfl, rfl, List.prefix_refl _, List.suffix_refl _, fun _ _ => rfl⟩

theorem trans {m m' m'' : Machine} (h : m.Keeps m') (k : m'.Keeps m'') : m.Keeps m'' :=
  ⟨h.layout.trans k.layout, k.freeList.trans h.freeList, k.nextReadyPid.trans h.nextReadyPid,
    k.window.trans h.window, h.cout.trans k.cout, h.touched.trans k.touched, fun i hi =>
      (k.ram i hi).trans (h.ram i fun hw => hi (hw.imp (k.touched.subset ·) (k.touched.subset ·)))⟩

instance : Std.Refl Machine.Keeps := ⟨refl⟩

instance : IsTrans Machine Machine.Keeps := ⟨fun _ _ _ => trans⟩

end Machine.Keeps

namespace Exec
open Effect

/-! ### What a RAM access comes to -/

variable {α : Type} {access : Nat → Access} {i : Nat} {E : Stop → Machine → Prop} {m : Machine}

theorem load_ok (h : i < ramSize) :
    load access i m = .ok (m.ram i) {m with touched := access i :: m.touched} := if_pos h

theorem store_ok {v : MemCell} (h : i < ramSize) : store access i v m =
    .ok () {m with ram := Function.update m.ram i v, touched := access i :: m.touched} := if_pos h

@[simp] theorem ensures_load {Q : MemCell → Machine → Prop} : Ensures (load access i) Q E m ↔
    (i < ramSize → Q (m.ram i) {m with touched := access i :: m.touched}) ∧
      (¬i < ramSize → E .undefined {m with touched := access i :: m.touched}) := by
  by_cases h : i < ramSize <;> simp [Ensures, load, h]

@[simp] theorem ensures_store {v : MemCell} {Q : Unit → Machine → Prop} :
    Ensures (store access i v) Q E m ↔
    (i < ramSize →
      Q () {m with ram := Function.update m.ram i v, touched := access i :: m.touched}) ∧
      (¬i < ramSize → E .undefined {m with touched := access i :: m.touched}) := by
  by_cases h : i < ramSize <;> simp [Ensures, store, h]

@[simp] theorem ensures_raise {e : Error} {Q : α → Machine → Prop} :
    Ensures (raise e : Exec α) Q E m ↔ E (.throws e) m := Iff.rfl

@[simp] theorem ensures_raiseIf {c : Prop} [Decidable c] {e : Error} {Q : Unit → Machine → Prop} :
    Ensures (raiseIf c e) Q E m ↔ (c → E (.throws e) m) ∧ (¬c → Q () m) := by
  simp [raiseIf]

/-! ### The frame -/

/-- A program that changes nothing `Keeps` speaks of. -/
abbrev Framed (x : Exec α) : Prop := Respects Machine.Keeps x

/-- An update of the parts of the machine that `Keeps` leaves free. -/
theorem framed_modify {f : Machine → Machine} (h : ∀ m : Machine, m.proc.SameLayout (f m).proc)
    (hfree : ∀ m, (f m).freeList = m.freeList) (hpid : ∀ m, (f m).nextReadyPid = m.nextReadyPid)
    (hwindow : ∀ m, (f m).window = m.window) (hcout : ∀ m, m.cout <+: (f m).cout)
    (htouched : ∀ m, (f m).touched = m.touched)
    (hram : ∀ m, (f m).ram = m.ram) : Framed (modify f) :=
  .update fun m => ⟨h m, hfree m, hpid m, hwindow m, hcout m, by rw [htouched], fun i _ => by rw [hram]⟩

theorem framed_record (m : Machine) (a : Access) : m.Keeps {m with touched := a :: m.touched} :=
  ⟨.refl _, rfl, rfl, rfl, List.prefix_refl _, List.suffix_cons .., fun _ _ => rfl⟩

theorem framed_raise (e : Error) : Framed (raise e : Exec α) := .throw _

theorem framed_raiseIf (c : Prop) [Decidable c] (e : Error) : Framed (raiseIf c e) :=
  .ite (framed_raise e) (.pure _)

theorem framed_load (access : Nat → Access) (i : Nat) : Framed (load access i) := by
  intro m
  rw [ensures_load]
  exact ⟨fun _ => framed_record m _, fun _ => framed_record m _⟩

theorem framed_store (access : Nat → Access) (i : Nat) (v : MemCell)
    (h : access i = .store i ∨ access i = .pixel i) : Framed (store access i v) := by
  intro m
  rw [ensures_store]
  refine ⟨fun _ => ?_, fun _ => framed_record m _⟩
  refine ⟨.refl _, rfl, rfl, rfl, List.prefix_refl _, List.suffix_cons .., fun j hj => ?_⟩
  refine Function.update_of_ne (fun hji => hj ?_) _ _
  subst hji
  rcases h with h | h
  · exact .inl (by rw [h]; exact List.mem_cons_self ..)
  · exact .inr (by rw [h]; exact List.mem_cons_self ..)

theorem framed_registerIndex (arg : MemAddr) : Framed (registerIndex arg) := by
  unfold registerIndex
  split
  · exact .pure _
  · exact .throw _

theorem framed_read (c : Cell) : Framed c.read := by
  cases c with
  | register r => exact .bind .get fun _ => .pure _
  | ram i => exact framed_load _ i

theorem framed_write (v : MemCell) (c : Cell) : Framed (c.write v) := by
  cases c with
  | register r =>
    exact framed_modify (fun _ => .refl _) (fun _ => rfl) (fun _ => rfl) (fun _ => rfl)
      (fun _ => List.prefix_refl _) (fun _ => rfl) fun _ => rfl
  | ram i => exact framed_store _ i v (.inl rfl)

theorem framed_getGui : Framed getGui := .bind (framed_load _ _) fun _ => .pure _

theorem framed_printed (bytes : List MemCell) : Framed (printed bytes) :=
  framed_modify (fun _ => .refl _) (fun _ => rfl) (fun _ => rfl) (fun _ => rfl)
    (fun _ => List.prefix_append ..) (fun _ => rfl) fun _ => rfl

/-- An update of PC, SP and the running flag only. -/
theorem framed_proc {f : Machine → Process} (h : ∀ m : Machine, m.proc.SameLayout (f m)) :
    Framed (modify fun m => {m with proc := f m}) :=
  framed_modify h (fun _ => rfl) (fun _ => rfl) (fun _ => rfl) (fun _ => List.prefix_refl _) (fun _ => rfl)
    fun _ => rfl

theorem framed_advance (n : MemAddr) : Framed (advance n) :=
  framed_proc fun _ => ⟨rfl, rfl, rfl, rfl, rfl, rfl, rfl, rfl⟩

theorem framed_jumpTo (offset : MemAddr) : Framed (jumpTo offset) :=
  framed_proc fun _ => ⟨rfl, rfl, rfl, rfl, rfl, rfl, rfl, rfl⟩

theorem framed_lowerSP (n : Nat) : Framed (lowerSP n) :=
  framed_proc fun _ => ⟨rfl, rfl, rfl, rfl, rfl, rfl, rfl, rfl⟩

theorem framed_raiseSP (n : Nat) : Framed (raiseSP n) :=
  framed_proc fun _ => ⟨rfl, rfl, rfl, rfl, rfl, rfl, rfl, rfl⟩

theorem framed_halt : Framed halt := framed_proc fun _ => ⟨rfl, rfl, rfl, rfl, rfl, rfl, rfl, rfl⟩

/-! ### Operands -/

theorem framed_fetchArgument : Framed fetchArgument := by
  unfold fetchArgument
  refine .bind .get fun _ => .bind (framed_load _ _) fun _ => .bind (framed_advance _) fun _ => ?_
  refine .ite (.bind .get fun _ => .bind (framed_load _ _) fun _ => .bind (framed_load _ _) fun _ =>
    .bind (framed_advance _) fun _ => .pure _) (.ite ?_ (.pure _))
  exact .bind .get fun _ => .bind (framed_load _ _) fun _ => .bind (framed_advance _) fun _ => .pure _

theorem framed_resolveWriteableArg (type : ArgType) (arg : MemAddr) :
    Framed (resolveWriteableArg type arg) := by
  cases type with
  | register => exact .bind (framed_registerIndex _) fun _ => .pure _
  | address => exact .bind .get fun _ => .pure _
  | indirectMem => exact .bind .get fun _ => .pure _
  | indirectLbl =>
    exact .bind .get fun _ => .bind (framed_load _ _) fun _ => .bind (framed_load _ _) fun _ =>
      .bind .get fun _ => .pure _
  | indirectReg =>
    exact .bind (framed_registerIndex _) fun _ => .bind .get fun _ => .bind .get fun _ => .pure _
  | number => exact framed_raise _
  | number16 => exact framed_raise _
  | other b => exact framed_raise _

theorem framed_cellValue (arg : RawArgument) : Framed (cellValue arg) :=
  .bind (framed_resolveWriteableArg _ _) framed_read

theorem framed_operandValue (arg : RawArgument) : Framed (operandValue arg) :=
  .ite (.pure _) (framed_cellValue arg)

theorem framed_wordValue (c : Prop) [Decidable c] (arg : RawArgument) : Framed (wordValue c arg) :=
  .ite (.pure _) (.bind (framed_cellValue arg) fun _ => .pure _)

theorem framed_assign (v : MemCell) (arg : RawArgument) :
    Framed (do (← resolveWriteableArg arg.type arg.value).write v) :=
  .bind (framed_resolveWriteableArg _ _) (framed_write v)

/-! ### Instructions -/

theorem framed_mov (dest src : RawArgument) : Framed (mov dest src) :=
  .bind (framed_operandValue src) fun v => framed_assign v dest

theorem framed_print (el : RawArgument) : Framed (print el) :=
  .bind (framed_operandValue el) fun _ => framed_printed _

theorem framed_updateCell (op : MemCell → MemCell → MemCell) (a : RawArgument) (b : MemCell) :
    Framed (updateCell op a b) :=
  .bind (framed_resolveWriteableArg _ _) fun c => .bind (framed_read c) fun _ => framed_write _ c

theorem framed_add (a b : RawArgument) : Framed (add a b) :=
  .bind (framed_operandValue b) fun _ => framed_updateCell _ a _

theorem framed_sub (a b : RawArgument) : Framed (sub a b) :=
  .bind (framed_operandValue b) fun _ => framed_updateCell _ a _

theorem framed_mul (a b : RawArgument) : Framed (mul a b) :=
  .bind (framed_operandValue b) fun _ => framed_updateCell _ a _

theorem framed_div (a b : RawArgument) : Framed (div a b) :=
  .bind (framed_operandValue b) fun _ => .bind (framed_raiseIf _ _) fun _ => framed_updateCell _ a _

theorem framed_extractInput : Framed extractInput := fun _ =>
  ⟨.refl _, rfl, rfl, rfl, List.prefix_refl _, List.suffix_refl _, fun _ _ => rfl⟩

theorem framed_takeKey : Framed takeKey := fun _ =>
  ⟨.refl _, rfl, rfl, rfl, List.prefix_refl _, List.suffix_refl _, fun _ _ => rfl⟩

theorem framed_inputValue : Framed inputValue := by
  refine .bind framed_getGui fun _ => .ite (.bind .get fun m => ?_) framed_extractInput
  cases m.window with
  | uninitialised => exact .throw _
  | null => exact framed_extractInput
  | opened => exact framed_takeKey

theorem framed_input (arg : RawArgument) : Framed (input arg) :=
  .bind framed_inputValue fun v => framed_assign v arg

theorem framed_cmp (a b : RawArgument) : Framed (cmp a b) :=
  .bind (framed_operandValue a) fun _ => .bind (framed_operandValue b) fun _ =>
    framed_modify (fun _ => .refl _) (fun _ => rfl) (fun _ => rfl) (fun _ => rfl)
      (fun _ => List.prefix_refl _) (fun _ => rfl) fun _ => rfl

theorem framed_jmp (target : RawArgument) : Framed (jmp target) :=
  .bind (framed_wordValue _ target) fun _ => framed_jumpTo _

theorem framed_jumpIf (condition : Bool → Bool → Bool) (arg : RawArgument) :
    Framed (jumpIf condition arg) :=
  .bind .get fun _ => .ite (.bind (framed_wordValue _ arg) fun _ => framed_jumpTo _) (.pure _)

theorem framed_spush (arg : RawArgument) : Framed (spush arg) := by
  refine .bind (framed_wordValue _ arg) fun _ => .bind (framed_lowerSP _) fun _ => .bind .get fun _ =>
    .bind (framed_raiseIf _ _) fun _ => .ite (framed_store _ _ _ (.inl rfl)) ?_
  exact .bind (framed_store _ _ _ (.inl rfl)) fun _ => framed_store _ _ _ (.inl rfl)

theorem framed_spop (arg : RawArgument) : Framed (spop arg) := by
  refine .bind .get fun _ => .bind (framed_raiseIf _ _) fun _ =>
    .ite (.bind (framed_load _ _) fun v => .bind (framed_resolveWriteableArg _ _) fun c =>
      .bind (framed_write v c) fun _ => framed_raiseSP _) ?_
  exact .bind (framed_load _ _) fun _ => .bind (framed_load _ _) fun _ =>
    .bind (framed_resolveWriteableArg _ _) fun c => .bind (framed_write _ c) fun _ => framed_raiseSP _

theorem framed_call (arg : RawArgument) : Framed (call arg) :=
  .bind (framed_raiseIf _ _) fun _ => .bind .get fun _ => .bind (framed_lowerSP _) fun _ =>
    .bind .get fun _ => .bind (framed_raiseIf _ _) fun _ => .bind (framed_store _ _ _ (.inl rfl)) fun _ =>
      .bind (framed_store _ _ _ (.inl rfl)) fun _ =>
        framed_proc fun _ => ⟨rfl, rfl, rfl, rfl, rfl, rfl, rfl, rfl⟩

theorem framed_ret : Framed ret :=
  .bind .get fun _ => .bind (framed_raiseIf _ _) fun _ => .bind (framed_load _ _) fun _ =>
    .bind (framed_load _ _) fun _ => .bind (framed_raiseSP _) fun _ =>
      framed_proc fun _ => ⟨rfl, rfl, rfl, rfl, rfl, rfl, rfl, rfl⟩

theorem framed_header (start : MemAddr) : Framed (header start) :=
  .bind (framed_load _ _) fun _ => .bind (framed_load _ _) fun _ => .bind (framed_load _ _) fun _ => .pure _

theorem framed_hallocScan (size fuel : Nat) (cursor : MemAddr) : Framed (hallocScan size fuel cursor) := by
  induction fuel generalizing cursor with
  | zero => exact .throw _
  | succ fuel ih =>
    exact .bind .get fun _ => .bind (framed_raiseIf _ _) fun _ => .bind (framed_header _) fun _ =>
      .ite (ih _) (.ite (.pure _) (ih _))

theorem framed_writeHeader (start size : Nat) (status : HeapReg) : Framed (writeHeader start size status) :=
  .bind (framed_store _ _ _ (.inl rfl)) fun _ => .bind (framed_store _ _ _ (.inl rfl)) fun _ =>
    framed_store _ _ _ (.inl rfl)

theorem framed_carve (size chunk dimension : Nat) : Framed (carve size chunk dimension) :=
  .ite (.bind (framed_writeHeader _ _ _) fun _ => framed_writeHeader _ _ _) (framed_writeHeader _ _ _)

theorem framed_halloc (place size : RawArgument) : Framed (halloc place size) :=
  .bind (framed_wordValue _ size) fun _ => .bind .get fun _ => .bind (framed_hallocScan _ _ _) fun _ =>
    .bind (framed_carve _ _ _) fun _ => framed_assign _ place

theorem framed_coalesce (fuel : Nat) (cursor : MemAddr) : Framed (coalesce fuel cursor) := by
  induction fuel generalizing cursor with
  | zero => exact .throw _
  | succ fuel ih =>
    refine .bind .get fun _ => .ite (.bind (framed_header _) fun _ => .ite ?_ (.pure _)) (.pure _)
    refine .bind (framed_header _) fun _ => .ite ?_ (ih _)
    exact .bind (framed_store _ _ _ (.inl rfl)) fun _ => .bind (framed_store _ _ _ (.inl rfl)) fun _ => ih _

theorem framed_hfree (userstart : RawArgument) : Framed (hfree userstart) :=
  .bind (framed_wordValue _ userstart) fun _ => .bind (framed_load _ _) fun _ =>
    .bind (framed_raiseIf _ _) fun _ => .bind (framed_store _ _ _ (.inl rfl)) fun _ =>
      .bind .get fun _ => framed_coalesce _ _

theorem framed_pixelIndex (index : RawArgument) : Framed (pixelIndex index) := by
  unfold pixelIndex
  cases index.type with
  | number => exact .pure _
  | number16 => exact .pure _
  | register => exact .bind (framed_cellValue _) fun _ => .bind (framed_cellValue _) fun _ => .pure _
  | indirectReg =>
    exact .bind .get fun _ => .bind (framed_registerIndex _) fun _ => .bind .get fun _ =>
      .bind (framed_load _ _) fun _ => .bind (framed_load _ _) fun _ => .pure _
  | indirectMem =>
    exact .bind .get fun _ => .bind (framed_load _ _) fun _ => .bind (framed_load _ _) fun _ => .pure _
  | address =>
    exact .bind .get fun _ => .bind (framed_load _ _) fun _ => .bind (framed_load _ _) fun _ => .pure _
  | indirectLbl => exact .pure _
  | other b => exact .pure _

theorem framed_fbset (index color : RawArgument) : Framed (fbset index color) :=
  .bind (framed_raiseIf _ _) fun _ => .bind framed_getGui fun _ => .bind (framed_raiseIf _ _) fun _ =>
    .bind (framed_pixelIndex _) fun _ => .bind (framed_operandValue _) fun _ =>
      .bind (framed_raiseIf _ _) fun _ => framed_store _ _ _ (.inr rfl)

theorem framed_colorOf (index : MemCell) : Framed (colorOf index) := by
  unfold colorOf
  split
  · exact .pure _
  · exact .throw _

theorem framed_convert (i n : Nat) : Framed (convert i n) := by
  induction n generalizing i with
  | zero => exact .pure _
  | succ n ih =>
    exact .bind (framed_load _ _) fun _ => .bind (framed_colorOf _) fun _ => .bind (ih _) fun _ => .pure _

/-- What showing a frame comes to. -/
theorem ensures_updateWindow {Q : Bool → Machine → Prop} (hundefined : E .undefined m)
    (hquiet : ∀ shown, Q shown m) (hevent : ∀ e rest, m.events = e :: rest → Q (e.frame = .shown)
      {m with events := rest, lastKey := e.key.getD m.lastKey, destroyed := e.frame = .closed}) :
    Ensures updateWindow Q E m := by
  have hfails : updateWindow m = .error .undefined m → Ensures updateWindow Q E m := fun h =>
    (ensures_of_error h).mpr hundefined
  cases hw : m.window with
  | uninitialised => exact hfails (by simp only [updateWindow, hw])
  | null => exact (ensures_of_ok (show updateWindow m = .ok false m by simp only [updateWindow, hw])).mpr (hquiet _)
  | opened =>
    by_cases hd : m.destroyed = true
    · exact hfails (by simp only [updateWindow, hw, if_pos hd])
    · cases he : m.events with
      | nil =>
        have hrun : updateWindow m = .ok true m := by simp only [updateWindow, hw, if_neg hd, he]
        exact (ensures_of_ok hrun).mpr (hquiet _)
      | cons e rest =>
        by_cases hf : e.frame = .missed
        · exact hfails (by simp only [updateWindow, hw, if_neg hd, he, if_pos hf])
        · have hrun : updateWindow m = .ok (e.frame = .shown)
              {m with events := rest, lastKey := e.key.getD m.lastKey, destroyed := e.frame = .closed} := by
            simp only [updateWindow, hw, if_neg hd, he, if_neg hf]
          exact (ensures_of_ok hrun).mpr (hevent e rest he)

theorem framed_updateWindow : Framed updateWindow := fun m =>
  ensures_updateWindow (.refl m) (fun _ => .refl m) fun _ _ _ =>
    ⟨.refl _, rfl, rfl, rfl, List.prefix_refl _, List.suffix_refl _, fun _ _ => rfl⟩

theorem framed_fbsync : Framed fbsync :=
  .bind (framed_convert _ _) fun _ => .bind (framed_modify (fun _ => .refl _) (fun _ => rfl)
    (fun _ => rfl) (fun _ => rfl) (fun _ => List.prefix_refl _) (fun _ => rfl) fun _ => rfl) fun _ =>
    .bind framed_updateWindow fun _ => .ite (framed_printed _) (.pure _)

theorem framed_unary {f : RawArgument → Exec Unit} (h : ∀ a, Framed (f a)) :
    Framed (do let a ← fetchArgument; f a) := .bind framed_fetchArgument h

theorem framed_binary {f : RawArgument → RawArgument → Exec Unit} (h : ∀ a b, Framed (f a b)) :
    Framed (do let a ← fetchArgument; let b ← fetchArgument; f a b) :=
  .bind framed_fetchArgument fun a => .bind framed_fetchArgument (h a)

theorem framed_execute (opcode : Opcode) : Framed (execute opcode) := by
  unfold execute
  split
  · exact .pure _
  · exact framed_binary framed_mov
  · exact framed_unary framed_print
  · exact framed_printed _
  · exact framed_binary framed_add
  · exact framed_binary framed_sub
  · exact framed_binary framed_mul
  · exact framed_binary framed_div
  · exact framed_unary framed_input
  · exact framed_unary framed_jmp
  · exact framed_binary framed_cmp
  · exact framed_unary (framed_jumpIf _)
  · exact framed_unary (framed_jumpIf _)
  · exact framed_unary (framed_jumpIf _)
  · exact framed_unary (framed_jumpIf _)
  · exact framed_unary framed_spush
  · exact framed_unary framed_spop
  · exact framed_binary framed_halloc
  · exact framed_unary framed_hfree
  · exact framed_unary framed_call
  · exact framed_ret
  · exact framed_binary framed_fbset
  · exact framed_fbsync
  · exact framed_halt
  · exact .bind .get fun _ => framed_raise _

/-- **Every turn of the loop keeps the frame.** -/
theorem framed_step : Framed step :=
  .bind .get fun _ => .bind (framed_load _ _) fun _ => .bind (framed_advance _) fun _ =>
    .bind (framed_execute _) fun _ => framed_modify (fun _ => .refl _) (fun _ => rfl) (fun _ => rfl)
      (fun _ => rfl) (fun _ => List.prefix_refl _) (fun _ => rfl) fun _ => rfl

end Exec

namespace Machine

theorem next_ok {m m' : Machine} (h : m.next = .ok m') :
    m.goesOn = true ∧ Exec.step m = .ok () m' := by
  unfold next at h
  split at h
  next hgo =>
    refine ⟨hgo, ?_⟩
    split at h
    next heq => cases h; exact heq
    next => cases h
  next => cases h

/-- The machine one turn on, if there is one. -/
def nextOr (m : Machine) : Machine :=
  match m.next with
  | .ok m' => m'
  | .error _ => m

theorem nextOr_ok {m : Machine} (h : m.next.isOk = true) : m.next = .ok m.nextOr := by
  unfold nextOr
  cases hm : m.next with
  | ok m' => rfl
  | error e =>
    rw [hm] at h
    cases h

theorem keeps_next {m m' : Machine} (h : m.next = .ok m') : m.Keeps m' :=
  Exec.framed_step.ok (next_ok h).2

/-- The loop of `exec`: what it prints is what went to the output stream. -/
def system : System Machine Ending MemCell where
  next := next
  output := cout
  output_next h := (keeps_next h).cout

theorem reaches_nextOr {m m' : Machine} (h : system.Reaches m m') (hok : m'.next.isOk = true) :
    system.Reaches m m'.nextOr :=
  h.trans (.single (nextOr_ok hok))

theorem keeps_reaches {m m' : Machine} (h : system.Reaches m m') : m.Keeps m' :=
  h.invariant (I := m.Keeps) (fun _ _ hk hn => hk.trans (keeps_next hn)) (.refl m)

end Machine
end CustomIsaVm
