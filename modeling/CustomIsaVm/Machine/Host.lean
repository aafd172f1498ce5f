import CustomIsaVm.Machine.Stack

/-! What a program gets from the host.

Input stream, window and display buffer are the host's. Only `INPUT` and `FBSYNC` deal
with them: every other instruction runs the same whatever the host is, and leaves it as
it is (`inward_perform`). So a run without a window depends on its input only through the
numbers that its `INPUT`s have taken so far, in order, and of these only through the byte
each is narrowed to (`input_stream`). -/
namespace CustomIsaVm

open Effect

/-- The members of a machine that are the host's. -/
structure Host where
  cin : Stdin
  events : List WindowEvent
  lastKey : UInt8
  destroyed : Bool
  hostDisplayBuffer : List UInt32

def Machine.host (m : Machine) : Host := ⟨m.cin, m.events, m.lastKey, m.destroyed, m.hostDisplayBuffer⟩

/-- The machine with another host. -/
def hosted (h : Host) (m : Machine) : Machine :=
  {m with
    cin := h.cin
    events := h.events
    lastKey := h.lastKey
    destroyed := h.destroyed
    hostDisplayBuffer := h.hostDisplayBuffer}

@[simp] theorem hosted_self (m : Machine) : hosted m.host m = m := rfl

@[simp] theorem host_hosted (h : Host) (m : Machine) : (hosted h m).host = h := rfl

namespace Exec

/-! ### What has nothing to do with the host -/

section
variable {h : Host}

theorem inward_raise {α : Type} (e : Error) : Overlooks (hosted h) (raise e : Exec α) := .throw _

theorem inward_raiseIf (c : Prop) [Decidable c] (e : Error) : Overlooks (hosted h) (raiseIf c e) :=
  .ite (.throw _) (.pure _)

theorem inward_load (access : Nat → Access) (i : Nat) : Overlooks (hosted h) (load access i) := by
  intro m
  unfold load
  by_cases hi : i < ramSize
  · rw [if_pos hi, if_pos hi]
    rfl
  · rw [if_neg hi, if_neg hi]
    rfl

theorem inward_store (access : Nat → Access) (i : Nat) (v : MemCell) :
    Overlooks (hosted h) (store access i v) := by
  intro m
  unfold store
  by_cases hi : i < ramSize
  · rw [if_pos hi, if_pos hi]
    rfl
  · rw [if_neg hi, if_neg hi]
    rfl

theorem inward_registerIndex (arg : MemAddr) : Overlooks (hosted h) (registerIndex arg) := by
  unfold registerIndex
  split
  · exact .pure _
  · exact .throw _

theorem inward_read (c : Cell) : Overlooks (hosted h) c.read := by
  cases c with
  | register r => exact .get_bind (fun _ => rfl) fun _ => .pure _
  | ram i => exact inward_load _ _

theorem inward_write (v : MemCell) (c : Cell) : Overlooks (hosted h) (c.write v) := by
  cases c with
  | register r => exact .update fun _ => rfl
  | ram i => exact inward_store _ _ _

theorem inward_getGui : Overlooks (hosted h) getGui := .bind (inward_load _ _) fun _ => .pure _

theorem inward_printed (bytes : List MemCell) : Overlooks (hosted h) (printed bytes) :=
  .update fun _ => rfl

theorem inward_jumpTo (offset : MemAddr) : Overlooks (hosted h) (jumpTo offset) := .update fun _ => rfl

theorem inward_lowerSP (n : Nat) : Overlooks (hosted h) (lowerSP n) := .update fun _ => rfl

theorem inward_raiseSP (n : Nat) : Overlooks (hosted h) (raiseSP n) := .update fun _ => rfl

/-! #### Operands -/

theorem inward_resolve (type : ArgType) (arg : MemAddr) :
    Overlooks (hosted h) (resolveWriteableArg type arg) := by
  cases type with
  | register => exact .bind (inward_registerIndex _) fun _ => .pure _
  | address => exact .get_bind (fun _ => rfl) fun _ => .pure _
  | indirectMem => exact .get_bind (fun _ => rfl) fun _ => .pure _
  | indirectLbl =>
    refine .get_bind (fun _ => rfl) fun m => ?_
    exact .bind (inward_load _ _) fun _ => .bind (inward_load _ _) fun _ =>
      .get_bind (fun _ => rfl) fun _ => .pure _
  | indirectReg =>
    refine .bind (inward_registerIndex _) fun r => ?_
    exact .get_bind (fun _ => rfl) fun _ => .get_bind (fun _ => rfl) fun _ => .pure _
  | number => exact .throw _
  | number16 => exact .throw _
  | other b => exact .throw _

theorem inward_cellValue (arg : RawArgument) : Overlooks (hosted h) (cellValue arg) :=
  .bind (inward_resolve _ _) inward_read

theorem inward_operandValue (arg : RawArgument) : Overlooks (hosted h) (operandValue arg) :=
  .ite (.pure _) (inward_cellValue arg)

theorem inward_wordValue (c : Prop) [Decidable c] (arg : RawArgument) :
    Overlooks (hosted h) (wordValue c arg) :=
  .ite (.pure _) (.bind (inward_cellValue arg) fun _ => .pure _)

theorem inward_assign (v : MemCell) (arg : RawArgument) :
    Overlooks (hosted h) (do (← resolveWriteableArg arg.type arg.value).write v) :=
  .bind (inward_resolve _ _) (inward_write v)

theorem inward_updateCell (op : MemCell → MemCell → MemCell) (a : RawArgument) (b : MemCell) :
    Overlooks (hosted h) (updateCell op a b) :=
  .bind (inward_resolve _ _) fun c => .bind (inward_read c) fun _ => inward_write _ c

/-! #### Instructions -/

theorem inward_jumpIf (condition : Bool → Bool → Bool) (arg : RawArgument) :
    Overlooks (hosted h) (jumpIf condition arg) :=
  .get_bind (fun _ => rfl) fun _ => .ite (.bind (inward_wordValue _ arg) inward_jumpTo) (.pure _)

theorem inward_spush (arg : RawArgument) : Overlooks (hosted h) (spush arg) := by
  refine .bind (inward_wordValue _ arg) fun v => .bind (inward_lowerSP _) fun _ => ?_
  refine .get_bind (fun _ => rfl) fun _ => .bind (inward_raiseIf _ _) fun _ => ?_
  exact .ite (inward_store _ _ _) (.bind (inward_store _ _ _) fun _ => inward_store _ _ _)

theorem inward_spop (arg : RawArgument) : Overlooks (hosted h) (spop arg) := by
  have hdeliver : ∀ v : MemCell, Overlooks (hosted h) (do
      (← resolveWriteableArg arg.type arg.value).write v
      raiseSP (stackWidth arg.type)) := fun v =>
    .bind (inward_resolve _ _) fun c => .bind (inward_write v c) fun _ => inward_raiseSP _
  refine .get_bind (fun _ => rfl) fun _ => .bind (inward_raiseIf _ _) fun _ => ?_
  exact .ite (.bind (inward_load _ _) hdeliver)
    (.bind (inward_load _ _) fun _ => .bind (inward_load _ _) fun _ => hdeliver _)

theorem inward_call (arg : RawArgument) : Overlooks (hosted h) (call arg) := by
  refine .bind (inward_raiseIf _ _) fun _ => .get_bind (fun _ => rfl) fun _ => ?_
  refine .bind (inward_lowerSP _) fun _ => .get_bind (fun _ => rfl) fun _ => ?_
  exact .bind (inward_raiseIf _ _) fun _ => .bind (inward_store _ _ _) fun _ =>
    .bind (inward_store _ _ _) fun _ => .update fun _ => rfl

theorem inward_ret : Overlooks (hosted h) ret :=
  .get_bind (fun _ => rfl) fun _ => .bind (inward_raiseIf _ _) fun _ => .bind (inward_load _ _) fun _ =>
    .bind (inward_load _ _) fun _ => .bind (inward_raiseSP _) fun _ => .update fun _ => rfl

theorem inward_header (start : MemAddr) : Overlooks (hosted h) (header start) :=
  .bind (inward_load _ _) fun _ => .bind (inward_load _ _) fun _ => .bind (inward_load _ _) fun _ => .pure _

theorem inward_hallocScan (size fuel : Nat) (cursor : MemAddr) :
    Overlooks (hosted h) (hallocScan size fuel cursor) := by
  induction fuel generalizing cursor with
  | zero => exact .throw _
  | succ fuel ih =>
    refine .get_bind (fun _ => rfl) fun _ => .bind (inward_raiseIf _ _) fun _ => ?_
    exact .bind (inward_header _) fun _ => .ite (ih _) (.ite (.pure _) (ih _))

theorem inward_writeHeader (start size : Nat) (status : HeapReg) :
    Overlooks (hosted h) (writeHeader start size status) :=
  .bind (inward_store _ _ _) fun _ => .bind (inward_store _ _ _) fun _ => inward_store _ _ _

theorem inward_carve (size chunk dimension : Nat) : Overlooks (hosted h) (carve size chunk dimension) :=
  .ite (.bind (inward_writeHeader _ _ _) fun _ => inward_writeHeader _ _ _) (inward_writeHeader _ _ _)

theorem inward_halloc (place size : RawArgument) : Overlooks (hosted h) (halloc place size) := by
  refine .bind (inward_wordValue _ size) fun _ => .get_bind (fun _ => rfl) fun _ => ?_
  exact .bind (inward_hallocScan _ _ _) fun _ => .bind (inward_carve _ _ _) fun _ => inward_assign _ place

theorem inward_coalesce (fuel : Nat) (cursor : MemAddr) : Overlooks (hosted h) (coalesce fuel cursor) := by
  induction fuel generalizing cursor with
  | zero => exact .throw _
  | succ fuel ih =>
    refine .get_bind (fun _ => rfl) fun _ => .ite ?_ (.pure _)
    refine .bind (inward_header _) fun _ => .ite ?_ (.pure _)
    refine .bind (inward_header _) fun _ => .ite ?_ (ih _)
    exact .bind (inward_store _ _ _) fun _ => .bind (inward_store _ _ _) fun _ => ih _

theorem inward_hfree (userstart : RawArgument) : Overlooks (hosted h) (hfree userstart) := by
  refine .bind (inward_wordValue _ userstart) fun _ => .bind (inward_load _ _) fun _ => ?_
  exact .bind (inward_raiseIf _ _) fun _ => .bind (inward_store _ _ _) fun _ =>
    .get_bind (fun _ => rfl) fun _ => inward_coalesce _ _

theorem inward_pixelIndex (index : RawArgument) : Overlooks (hosted h) (pixelIndex index) := by
  unfold pixelIndex
  cases index.type with
  | number => exact .pure _
  | number16 => exact .pure _
  | register => exact .bind (inward_cellValue _) fun _ => .bind (inward_cellValue _) fun _ => .pure _
  | indirectReg =>
    refine .get_bind (fun _ => rfl) fun _ => .bind (inward_registerIndex _) fun _ => ?_
    exact .get_bind (fun _ => rfl) fun _ => .bind (inward_load _ _) fun _ => .bind (inward_load _ _) fun _ => .pure _
  | indirectMem =>
    exact .get_bind (fun _ => rfl) fun _ => .bind (inward_load _ _) fun _ => .bind (inward_load _ _) fun _ => .pure _
  | address =>
    exact .get_bind (fun _ => rfl) fun _ => .bind (inward_load _ _) fun _ => .bind (inward_load _ _) fun _ => .pure _
  | indirectLbl => exact .pure _
  | other b => exact .pure _

theorem inward_fbset (index color : RawArgument) : Overlooks (hosted h) (fbset index color) :=
  .bind (inward_raiseIf _ _) fun _ => .bind inward_getGui fun _ => .bind (inward_raiseIf _ _) fun _ =>
    .bind (inward_pixelIndex _) fun _ => .bind (inward_operandValue _) fun _ =>
      .bind (inward_raiseIf _ _) fun _ => inward_store _ _ _

theorem inward_convert (i n : Nat) : Overlooks (hosted h) (convert i n) := by
  induction n generalizing i with
  | zero => exact .pure _
  | succ n ih =>
    refine .bind (inward_load _ _) fun c => .bind ?_ fun _ => .bind (ih _) fun _ => .pure _
    unfold colorOf
    split
    · exact .pure _
    · exact .throw _

/-- The instructions that deal with the host. -/
def DealsWithHost : Instruction → Prop
  | .input _ | .fbsync => True
  | _ => False

/-- **No other instruction does.** -/
theorem inward_perform {i : Instruction} (hi : ¬ DealsWithHost i) : Overlooks (hosted h) (perform i) := by
  cases i with
  | nop => exact .pure _
  | mov dest src => exact .bind (inward_operandValue src) fun v => inward_assign v dest
  | print el => exact .bind (inward_operandValue el) fun _ => inward_printed _
  | printflush => exact inward_printed _
  | add a b => exact .bind (inward_operandValue b) fun _ => inward_updateCell _ a _
  | sub a b => exact .bind (inward_operandValue b) fun _ => inward_updateCell _ a _
  | mul a b => exact .bind (inward_operandValue b) fun _ => inward_updateCell _ a _
  | div a b =>
    exact .bind (inward_operandValue b) fun _ => .bind (inward_raiseIf _ _) fun _ => inward_updateCell _ a _
  | input arg => exact absurd trivial hi
  | jmp target => exact .bind (inward_wordValue _ target) inward_jumpTo
  | cmp arg1 arg2 =>
    exact .bind (inward_operandValue arg1) fun _ => .bind (inward_operandValue arg2) fun _ =>
      .update fun _ => rfl
  | je arg => exact inward_jumpIf (fun zero _ => zero) arg
  | jne arg => exact inward_jumpIf (fun zero _ => !zero) arg
  | jg arg => exact inward_jumpIf (fun _ sign => sign) arg
  | jng arg => exact inward_jumpIf (fun _ sign => !sign) arg
  | spush arg => exact inward_spush arg
  | spop arg => exact inward_spop arg
  | halloc place size => exact inward_halloc place size
  | hfree userstart => exact inward_hfree userstart
  | call arg => exact inward_call arg
  | ret => exact inward_ret
  | fbset index color => exact inward_fbset index color
  | fbsync => exact absurd trivial hi
  | halt => exact .update fun _ => rfl
  | unknown opcode => exact .get_bind (fun _ => rfl) fun _ => inward_raise _

end

/-- What overlooks the host leaves it as it is. -/
theorem host_kept {α : Type} {x : Exec α} (hx : ∀ h, Overlooks (hosted h) x) :
    Respects (fun m m' : Machine => m'.host = m.host) x :=
  Overlooks.kept (fun _ => rfl) (fun _ _ => rfl) hx

/-! ### The input stream -/

/-- The machine with another input. -/
def fedWith (c : Stdin) (m : Machine) : Machine := {m with cin := c}

/-- What overlooks the host overlooks its input. -/
theorem overlooks_cin {α : Type} {x : Exec α} (hx : ∀ h, Overlooks (hosted h) x) (c : Stdin) :
    Overlooks (fedWith c) x := by
  intro m
  have hhost := hx {m.host with cin := c}
  have hkept := host_kept hx m
  show x (hosted {m.host with cin := c} m) = _
  cases hrun : x m with
  | ok a m' =>
    rw [hhost.ok hrun, ← hkept.ok hrun]
    rfl
  | error e m' =>
    rw [hhost.error hrun, ← hkept.error hrun]
    rfl

/-- `FBSYNC` does so too. -/
theorem fbsync_overlooks_cin (c : Stdin) : Overlooks (fedWith c) fbsync := by
  have hupdate : Overlooks (fedWith c) updateWindow := by
    intro m
    cases hw : m.window with
    | uninitialised => simp only [updateWindow, fedWith, hw]
    | null => simp only [updateWindow, fedWith, hw]
    | opened =>
      by_cases hd : m.destroyed = true
      · simp only [updateWindow, fedWith, hw, if_pos hd]
      · cases he : m.events with
        | nil => simp only [updateWindow, fedWith, hw, if_neg hd, he]
        | cons e rest =>
          by_cases hf : e.frame = .missed
          · simp only [updateWindow, fedWith, hw, if_neg hd, he, if_pos hf]
          · simp only [updateWindow, fedWith, hw, if_neg hd, he, if_neg hf]
  refine .bind (overlooks_cin (fun _ => inward_convert _ _) c) fun _ => .bind (.update fun _ => rfl) fun _ => ?_
  exact .bind hupdate fun _ => .ite (.update fun _ => rfl) (.pure _)

/-- All but `INPUT` overlook the input. -/
theorem perform_overlooks_cin {i : Instruction} (hi : ∀ arg, i ≠ .input arg) (c : Stdin) :
    Overlooks (fedWith c) (perform i) := by
  by_cases hdeals : DealsWithHost i
  · cases i with
    | input arg => exact absurd rfl (hi arg)
    | fbsync => exact fbsync_overlooks_cin c
    | _ => exact hdeals.elim
  · exact overlooks_cin (fun _ => inward_perform hdeals) c

theorem cin_kept {α : Type} {x : Exec α} (hx : ∀ c, Overlooks (fedWith c) x) :
    Respects (fun m m' : Machine => m'.cin = m.cin) x :=
  Overlooks.kept (fun _ => rfl) (fun _ _ => rfl) hx

end Exec

namespace Stdin

/-- The stream after `n` numbers have been taken. -/
def skip : Nat → Stdin → Stdin
  | 0, c => c
  | n + 1, c => skip n c.extract.2

/-- The `n`-th number of the stream, as `INPUT` stores it. -/
def byte (n : Nat) (c : Stdin) : MemCell := UInt8.ofInt (c.skip n).extract.1

theorem skip_add (m n : Nat) (c : Stdin) : c.skip (m + n) = (c.skip m).skip n := by
  induction m generalizing c with
  | zero => rw [Nat.zero_add, skip]
  | succ m ih => rw [Nat.succ_add, skip, skip, ih]

theorem byte_add (m n : Nat) (c : Stdin) : c.byte (m + n) = (c.skip m).byte n := by
  rw [byte, byte, skip_add]

end Stdin

namespace Exec

/-- Without a window `INPUT` takes a number, or it reads `window` before it is set. -/
theorem inputValue_number {m : Machine} (hw : m.window ≠ .opened) :
    ∃ t, (∀ c, inputValue (fedWith c m) = .error .undefined (fedWith c (recorded m t))) ∨
      ∀ c, inputValue (fedWith c m) = .ok (UInt8.ofInt c.extract.1) (fedWith c.extract.2 (recorded m t)) := by
  have hgui : ∀ c, getGui (fedWith c m) =
      .ok m.getGui (fedWith c (recorded m (.flag guiFlag :: m.touched))) := fun c =>
    bind_ok (load_ok (show guiFlag < ramSize by decide))
  refine ⟨.flag guiFlag :: m.touched, ?_⟩
  cases hg : m.getGui with
  | false => exact .inr fun c => by rw [inputValue, bind_ok (hgui c), hg]; rfl
  | true =>
    cases hwindow : m.window with
    | uninitialised =>
      refine .inl fun c => ?_
      rw [inputValue, bind_ok (hgui c), hg, if_pos rfl, bind_ok (get_run _)]
      simp only [fedWith, recorded, hwindow]
      rfl
    | null =>
      refine .inr fun c => ?_
      rw [inputValue, bind_ok (hgui c), hg, if_pos rfl, bind_ok (get_run _)]
      simp only [fedWith, recorded, hwindow]
      rfl
    | opened => exact absurd hwindow hw

/-- `INPUT` takes a key where the window is open in GUI mode, and a number elsewhere. -/
theorem inputValue_cases {m m' : Machine} {v : MemCell} (h : inputValue m = .ok v m') :
    ((m.getGui = true ∧ m.window = .opened) ∧ v = m.lastKey ∧ ∃ t, m' = {recorded m t with lastKey := 0}) ∨
      ¬ (m.getGui = true ∧ m.window = .opened) ∧ v = m.cin.byte 0 ∧
        ∃ t, m' = fedWith (m.cin.skip 1) (recorded m t) := by
  obtain ⟨gui, m₁, hgui, hrest⟩ := bind_eq_ok.mp h
  obtain ⟨rfl, t, rfl⟩ := getGui_eq_ok hgui
  split at hrest
  · obtain ⟨n, m₂, hget, hrest⟩ := bind_eq_ok.mp hrest
    cases hget
    cases hw : (recorded m t).window with
    | uninitialised =>
      simp only [hw] at hrest
      cases hrest
    | null =>
      simp only [hw] at hrest
      cases hrest
      exact .inr ⟨fun hkey => (by cases hw.symm.trans hkey.2), rfl, t, rfl⟩
    | opened =>
      simp only [hw] at hrest
      cases hrest
      exact .inl ⟨⟨‹_›, hw⟩, rfl, t, rfl⟩
  · cases hrest
    exact .inr ⟨fun hkey => absurd hkey.1 ‹_›, rfl, t, rfl⟩

/-- What `INPUT` stores is what it has read. -/
theorem input_stores {m m' : Machine} {arg : RawArgument} {c : Cell} (hc : Denotes m arg c)
    (h : input arg m = .ok () m') : ∃ m₁, inputValue m = .ok (c.value m') m₁ := by
  obtain ⟨v, m₁, hv, hassign⟩ := bind_eq_ok.mp h
  have hc₁ : Denotes m₁ arg c := by
    rcases inputValue_cases hv with ⟨-, -, t, rfl⟩ | ⟨-, -, t, rfl⟩
    · exact ⟨hc.cell, hc.live⟩
    · exact ⟨hc.cell, hc.live⟩
  obtain ⟨t, ht⟩ := assign_run (v := v) hc₁
  cases ht.symm.trans hassign
  have hstored : c.value (recorded (put m₁ v c) t) = v := by
    cases c with
    | register r => exact Function.update_self ..
    | ram i => exact Function.update_self ..
  rw [hstored]
  exact ⟨m₁, hv⟩

/-- Whether a value can be stored does not depend on the value. -/
theorem assign_error {m m' : Machine} {arg : RawArgument} {v : MemCell} {e : Stop}
    (h : (do (← resolveWriteableArg arg.type arg.value).write v : Exec Unit) m = .error e m') (w : MemCell) :
    ∃ m'', (do (← resolveWriteableArg arg.type arg.value).write w : Exec Unit) m = .error e m'' := by
  rw [bind_run] at h
  rw [bind_run]
  cases hc : resolveWriteableArg arg.type arg.value m with
  | error f m₁ =>
    rw [hc] at h
    cases h
    exact ⟨_, rfl⟩
  | ok c m₁ =>
    rw [hc] at h
    cases c with
    | register r => cases h
    | ram i =>
      simp only [Cell.write, store] at h ⊢
      split at h
      · cases h
      · cases h
        exact ⟨_, if_neg ‹_›⟩

/-- An `INPUT`, and the same one with another input. -/
theorem input_fed {m : Machine} (hw : m.window ≠ .opened) (arg : RawArgument) (c : Stdin) :
    match input arg m with
    | .ok _ m' => m'.cin = m.cin.skip 1 ∧
      (c.byte 0 = m.cin.byte 0 → input arg (fedWith c m) = .ok () (fedWith (c.skip 1) m'))
    | .error e _ => ∃ m', input arg (fedWith c m) = .error e m' := by
  obtain ⟨t, hnone | hnumber⟩ := inputValue_number hw
  · have hself : input arg m = .error .undefined (recorded m t) := bind_error (hnone m.cin)
    rw [hself]
    exact ⟨_, bind_error (hnone c)⟩
  · have hassign := fun (v : MemCell) (h : Host) => inward_assign (h := h) v arg
    have hrun : ∀ c, input arg (fedWith c m) = (do (← resolveWriteableArg arg.type arg.value).write (c.byte 0))
        (fedWith c.extract.2 (recorded m t)) := fun c => bind_ok (hnumber c)
    have hself := hrun m.cin
    rw [show fedWith m.cin m = m from rfl] at hself
    rw [hself, hrun]
    have hover := fun v => overlooks_cin (hassign v) c.extract.2
    have hkept := host_kept (hassign (m.cin.byte 0)) (fedWith m.cin.extract.2 (recorded m t))
    cases hstored : (do (← resolveWriteableArg arg.type arg.value).write (m.cin.byte 0) : Exec Unit)
        (fedWith m.cin.extract.2 (recorded m t)) with
    | ok u m' =>
      refine ⟨congrArg Host.cin (hkept.ok hstored), fun hbyte => ?_⟩
      have hfed := (hover _).ok hstored
      rw [hbyte]
      exact hfed
    | error e m' =>
      obtain ⟨m'', h⟩ := assign_error hstored (c.byte 0)
      have hfed := (hover _).error h
      exact ⟨_, hfed⟩

end Exec

namespace Machine
open Exec

/-- Whether a machine is about to take a number. -/
def takesNumber (m : Machine) : Option Unit :=
  match current m with
  | .input _ => some ()
  | _ => none

/-- How many numbers the first `n` turns take. -/
def numbersRead (n : Nat) (m : Machine) : Nat := (system.trace takesNumber n m).length

/-- One turn, and the same one with another input. -/
theorem next_fed {m : Machine} {size : Nat} (hl : Loaded size m.proc) (hw : m.window ≠ .opened) (c : Stdin) :
    match m.next with
    | .ok m' => m'.cin = m.cin.skip (takesNumber m).toList.length ∧
      ((∀ k < (takesNumber m).toList.length, c.byte k = m.cin.byte k) →
        (fedWith c m).next = .ok (fedWith (c.skip (takesNumber m).toList.length) m'))
    | .error e => (fedWith c m).next = .error e := by
  have hl' : Loaded size (fedWith c m).proc := hl
  by_cases hgo : m.goesOn = true
  · have hgo' : (fedWith c m).goesOn = true := hgo
    have hperform : match perform (current m) (fetched m) with
        | .ok _ m' => m'.cin = m.cin.skip (takesNumber m).toList.length ∧
          ((∀ k < (takesNumber m).toList.length, c.byte k = m.cin.byte k) →
            perform (current m) (fedWith c (fetched m)) = .ok () (fedWith (c.skip (takesNumber m).toList.length) m'))
        | .error e _ => ∃ m', perform (current m) (fedWith c (fetched m)) = .error e m' := by
      by_cases hin : ∃ arg, current m = .input arg
      · obtain ⟨arg, hi⟩ := hin
        have htakes : takesNumber m = some () := by rw [takesNumber, hi]
        have hfed := input_fed (m := fetched m) hw arg c
        rw [hi, htakes]
        show match input arg (fetched m) with | .ok _ m' => _ | .error e _ => _
        cases hrun : input arg (fetched m) with
        | ok u m' =>
          rw [hrun] at hfed
          exact ⟨hfed.1, fun hsame => hfed.2 (hsame 0 Nat.zero_lt_one)⟩
        | error e m' =>
          rw [hrun] at hfed
          exact hfed
      · have hother : ∀ arg, current m ≠ .input arg := fun arg hi => hin ⟨arg, hi⟩
        have htakes : takesNumber m = none := by
          unfold takesNumber
          split
          · exact absurd ‹_› (hother _)
          · rfl
        have hover := perform_overlooks_cin hother
        have hkept := cin_kept hover (fetched m)
        rw [htakes]
        cases hrun : perform (current m) (fetched m) with
        | ok u m' => exact ⟨hkept.ok hrun, fun _ => (hover c).ok hrun⟩
        | error e m' => exact ⟨_, (hover c).error hrun⟩
    cases hrun : perform (current m) (fetched m) with
    | ok u m' =>
      rw [hrun] at hperform
      rw [next_ok_of_perform hl hgo hrun]
      exact ⟨hperform.1, fun hsame => next_ok_of_perform hl' hgo' (hperform.2 hsame)⟩
    | error e m' =>
      rw [hrun] at hperform
      rw [next_error_of_perform hl hgo hrun]
      exact next_error_of_perform hl' hgo' hperform.choose_spec
  · have hstops : m.next = .error (if m.proc.running then .unhalted else .halted) := if_neg hgo
    rw [hstops]
    exact if_neg (show ¬ (fedWith c m).goesOn = true from hgo)

/-- A run, and the same one with another input. -/
theorem after_fed {n : Nat} {m m' : Machine} {size : Nat} (hl : Loaded size m.proc) (hw : m.window ≠ .opened)
    (hn : system.after n m = some m') (c : Stdin) :
    m'.cin = m.cin.skip (numbersRead n m) ∧ ((∀ k < numbersRead n m, c.byte k = m.cin.byte k) →
      system.after n (fedWith c m) = some (fedWith (c.skip (numbersRead n m)) m')) := by
  induction n generalizing m c with
  | zero =>
    cases hn
    exact ⟨rfl, fun _ => rfl⟩
  | succ n ih =>
    have hturn := next_fed hl hw c
    cases hnext : m.next with
    | error e => rw [System.after_succ_error system (show system.next m = .error e from hnext)] at hn; cases hn
    | ok u =>
      rw [hnext] at hturn
      have hnext : system.next m = .ok u := hnext
      have hkeeps := keeps_next hnext
      obtain ⟨hcin, hfed⟩ := hturn
      rw [System.after_succ_ok system hnext] at hn
      obtain ⟨hrest, hrun⟩ := ih (hkeeps.layout.loaded hl) (by rw [hkeeps.window]; exact hw) hn
        (c.skip (takesNumber m).toList.length)
      have hcount : numbersRead (n + 1) m = (takesNumber m).toList.length + numbersRead n u := by
        rw [numbersRead, System.trace_succ_ok hnext, List.length_append]
        rfl
      rw [hcount, Stdin.skip_add, Stdin.skip_add]
      refine ⟨by rw [hrest, hcin], fun hsame => ?_⟩
      have hthis := hfed fun k hk => hsame k (by omega)
      rw [System.after_succ_ok system hthis]
      refine hrun fun k hk => ?_
      rw [hcin, ← Stdin.byte_add, ← Stdin.byte_add]
      exact hsame _ (by omega)

/-- What an `INPUT` stores. -/
theorem next_input {m m' : Machine} {size : Nat} (hl : Loaded size m.proc) (hw : m.window ≠ .opened)
    {arg : RawArgument} (hi : current m = .input arg) {c : Cell} (hc : Denotes m arg c) (hnext : m.next = .ok m') :
    c.value m' = m.cin.byte 0 := by
  obtain ⟨m₁, hrun, rfl⟩ := next_perform hl hnext
  rw [hi] at hrun
  obtain ⟨m₂, hv⟩ := input_stores (m := fetched m) ⟨hc.cell, hc.live⟩ hrun
  rcases inputValue_cases hv with ⟨htakes, -⟩ | ⟨-, hvalue, -⟩
  · exact absurd htakes.2 hw
  · cases c <;> exact hvalue

end Machine

open Exec

/-- **A run is a function of the numbers it has read.** In every session, without a window:
the input is used up one number at each `INPUT`, in order; the `INPUT` that comes next
stores the number that comes next; and with any other input that offers the same bytes so
far, the run comes to the same machine, and ends where it ends. -/
theorem input_stream {vm : VM} {before after : List Process} {proc : Process}
    (hs : Session vm (before ++ proc :: after)) (cin : Stdin) {handle : Window} (hhandle : handle ≠ .opened)
    (events : List WindowEvent) {n : Nat} {m : Machine}
    (hm : Machine.system.after n (.boot vm proc cin handle events) = some m) :
    m.cin = cin.skip (Machine.numbersRead n (.boot vm proc cin handle events)) ∧
    (∀ arg c m', current m = .input arg → Denotes m arg c → m.next = .ok m' →
      c.value m' = cin.byte (Machine.numbersRead n (.boot vm proc cin handle events))) ∧
    ∀ cin' : Stdin, (∀ k < Machine.numbersRead n (.boot vm proc cin handle events), cin'.byte k = cin.byte k) →
      Machine.system.after n (.boot vm proc cin' handle events) =
        some (fedWith (cin'.skip (Machine.numbersRead n (.boot vm proc cin handle events))) m) ∧
      ∀ e, m.next = .error e →
        (fedWith (cin'.skip (Machine.numbersRead n (.boot vm proc cin handle events))) m).next = .error e := by
  obtain ⟨size, hl⟩ := hs.sound.loaded proc (by simp)
  have hw : (Machine.boot vm proc cin handle events).window ≠ .opened := by
    show (if vm.getGui then handle else .uninitialised) ≠ _
    split
    · exact hhandle
    · nofun
  have hkeeps := Machine.keeps_reaches ⟨n, hm⟩
  have hlm : Loaded size m.proc := hkeeps.layout.loaded hl
  have hwm : m.window ≠ .opened := by
    rw [hkeeps.window]
    exact hw
  have hcin := (Machine.after_fed hl hw hm cin).1
  refine ⟨hcin, fun arg c m' hi hc hnext => ?_, fun cin' hsame => ?_⟩
  · rw [Machine.next_input hlm hwm hi hc hnext, hcin, ← Stdin.byte_add]
    rfl
  · refine ⟨(Machine.after_fed hl hw hm cin').2 hsame, fun e he => ?_⟩
    have hturn := Machine.next_fed hlm hwm (cin'.skip (Machine.numbersRead n (.boot vm proc cin handle events)))
    rw [he] at hturn
    exact hturn

/-- `INPUT A`, `INPUT B`, `HALT`. -/
def inputTwice : List MemCell := [0, 2, 0x21, 1, 1, 0x21, 1, 2, 0xFF]

def inputTwiceMachine (text : String) : Machine :=
  .boot (freshVM inputTwice) (freshProcess inputTwice) ⟨text.toList, false⟩ .null []

/-- The first of two numbers is the same: one turn on, only what is left of the input differs. -/
theorem input_stream_seven : Machine.system.after 1 (inputTwiceMachine "7 8") =
    some (fedWith ⟨" 8".toList, false⟩ (inputTwiceMachine "7 9").nextOr) := by
  have hs : Session (freshVM inputTwice) ([] ++ freshProcess inputTwice :: []) :=
    .load inputTwice .fresh (load_fresh (by decide))
  have hread : Machine.numbersRead 1 (inputTwiceMachine "7 9") = 1 := by decide
  have hrun := (input_stream hs ⟨"7 9".toList, false⟩ (by decide) []
    (show Machine.system.after 1 (inputTwiceMachine "7 9") = some (inputTwiceMachine "7 9").nextOr from rfl)).2.2
      ⟨"7 8".toList, false⟩ (fun k hk => by
        obtain rfl : k = 0 := by
          have : k < Machine.numbersRead 1 (inputTwiceMachine "7 9") := hk
          omega
        decide)
  exact hrun.1

end CustomIsaVm
