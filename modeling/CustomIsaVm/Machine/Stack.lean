import CustomIsaVm.Lib.Lifo
import CustomIsaVm.Machine.Operand

/-! The stack of a process.

`SPUSH`, `SPOP`, `CALL` and `RET` check their bounds each in its own way: two
lower SP first and look then, two look first. Here all four are operations of one
bounded stack of bytes (`Lifo`), kept between SP and the top of the segment.

`Stacked m s` says that the bytes above SP are `s`. A step of a stack instruction
takes it to the stack after the instruction's operation, or raises the fault of
that operation (`stack_step`); other steps may come in between as long as they
leave SP and the bytes above it alone (`StackRun`). -/
namespace CustomIsaVm

open Effect

/-! ### The loop, where a process is laid out -/

namespace Exec

/-- The machine as the body of the instruction at PC finds it. -/
def fetched (m : Machine) : Machine := past m (currentSize m)

@[simp] theorem fetched_ram (m : Machine) : (fetched m).ram = m.ram := rfl

@[simp] theorem fetched_registers (m : Machine) : (fetched m).registers = m.registers := rfl

@[simp] theorem fetched_sp (m : Machine) : (fetched m).proc.sp = m.proc.sp := rfl

theorem fetched_layout (m : Machine) : m.proc.SameLayout (fetched m).proc :=
  ⟨rfl, rfl, rfl, rfl, rfl, rfl, rfl, rfl⟩

end Exec

namespace Machine
open Exec

theorem goesOn_pc {m : Machine} (h : m.goesOn = true) :
    m.proc.running = true ∧ m.proc.pc.toNat < m.proc.lastCodeSector.toNat := by
  simp only [goesOn, Bool.and_eq_true, decide_eq_true_eq] at h
  exact h

theorem step_fetched {m : Machine} {size : Nat} (hl : Loaded size m.proc) (hgo : m.goesOn = true) :
    step m = complete (current m) (fetched m) := by
  have hram : ramSize = 64000 := rfl
  have hflag : guiFlag = 59903 := rfl
  have hpc := (goesOn_pc hgo).2
  have hlast := hl.lastCodeSector
  have hfits := hl.fits
  exact step_current (by omega)

theorem next_ok_of_perform {m m' : Machine} {size : Nat} (hl : Loaded size m.proc)
    (hgo : m.goesOn = true) (h : perform (current m) (fetched m) = .ok () m') :
    m.next = .ok {m' with row := m'.row + 1} := by
  rw [next, if_pos hgo, step_fetched hl hgo, complete, bind_ok h]
  rfl

theorem next_error_of_perform {m m' : Machine} {size : Nat} (hl : Loaded size m.proc)
    (hgo : m.goesOn = true) {s : Stop} (h : perform (current m) (fetched m) = .error s m') :
    m.next = .error (.stopped s) := by
  rw [next, if_pos hgo, step_fetched hl hgo, complete, bind_error h]

/-- A turn of the loop that goes on has performed the instruction at PC. -/
theorem next_perform {m m' : Machine} {size : Nat} (hl : Loaded size m.proc) (h : m.next = .ok m') :
    ∃ m₁, perform (current m) (fetched m) = .ok () m₁ ∧ m' = {m₁ with row := m₁.row + 1} := by
  obtain ⟨hgo, hstep⟩ := next_ok h
  rw [step_fetched hl hgo] at hstep
  obtain ⟨_, m₁, hm₁, hrow⟩ := bind_eq_ok.mp hstep
  cases hrow
  exact ⟨m₁, hm₁, rfl⟩

/-- A turn that stops has stopped in the instruction at PC. -/
theorem step_error {m m' : Machine} {size : Nat} (hl : Loaded size m.proc) (hgo : m.goesOn = true)
    {s : Stop} (h : step m = .error s m') : perform (current m) (fetched m) = .error s m' := by
  rw [step_fetched hl hgo, complete, bind_run] at h
  split at h
  · cases h
  · cases h
    assumption

theorem next_error {m : Machine} {size : Nat} (hl : Loaded size m.proc) {s : Stop}
    (h : m.next = .error (.stopped s)) :
    m.goesOn = true ∧ ∃ m', perform (current m) (fetched m) = .error s m' := by
  unfold next at h
  split at h
  · rename_i hgo
    split at h
    · cases h
    · rename_i s' m' hstep
      cases h
      exact ⟨hgo, m', step_error hl hgo hstep⟩
  · split at h <;> cases h

theorem next_returns {m : Machine} {size : Nat} (hl : Loaded size m.proc) (hgo : m.goesOn = true)
    {Q : Unit → Machine → Prop}
    (h : Ensures (perform (current m)) Q (fun _ _ => False) (fetched m)) :
    ∃ m', Q () m' ∧ m.next = .ok {m' with row := m'.row + 1} := by
  obtain ⟨_, m', hm', hQ⟩ := ensures_returns.mp h
  exact ⟨m', hQ, next_ok_of_perform hl hgo hm'⟩

theorem next_raises {m : Machine} {size : Nat} (hl : Loaded size m.proc) (hgo : m.goesOn = true)
    {e : Error} (h : Ensures (perform (current m)) (fun _ _ => False) (fun s _ => s = .throws e)
      (fetched m)) : m.next = .error (.stopped (.throws e)) := by
  obtain ⟨_, m', hm', rfl⟩ := ensures_fails.mp h
  exact next_error_of_perform hl hgo hm'

end Machine

/-! ### The representation -/

/-- The bytes from SP to the top of the segment are `s`. -/
structure Stacked (m : Machine) (s : List MemCell) : Prop where
  loaded : ∃ size, Loaded size m.proc
  height : m.proc.sp.toNat + s.length = m.proc.top
  bounded : s.length ≤ VMconf.programStackSizeBytes
  bytes : Holds m.ram m.proc.sp.toNat s

/-- SP stays in its window. -/
theorem Stacked.sp {m : Machine} {s : List MemCell} (h : Stacked m s) :
    m.proc.stackLimit.toNat ≤ m.proc.sp.toNat ∧ m.proc.sp.toNat ≤ m.proc.top := by
  have hcap : VMconf.programStackSizeBytes = 1000 := rfl
  obtain ⟨size, hl⟩ := h.loaded
  have htop := hl.top
  have hlimit := hl.stackLimit
  have hheight := h.height
  have hbounded := h.bounded
  omega

/-- The representation survives what leaves the layout, SP and the bytes above it alone. -/
theorem Stacked.congr {m m' : Machine} {s : List MemCell} (h : Stacked m s)
    (hlayout : m.proc.SameLayout m'.proc) (hsp : m'.proc.sp = m.proc.sp)
    (hram : ∀ i, m.proc.sp.toNat ≤ i → i < m.proc.top → m'.ram i = m.ram i) : Stacked m' s := by
  obtain ⟨size, hl⟩ := h.loaded
  refine ⟨⟨size, hlayout.loaded hl⟩, by rw [hsp, hlayout.top]; exact h.height, h.bounded, ?_⟩
  rw [hsp]
  exact h.bytes.congr fun j hj hj' => hram j hj (by rw [← h.height]; exact hj')

/-- A cell below the top of a laid out segment is in RAM. -/
theorem Stacked.lt_ramSize {m : Machine} {s : List MemCell} (h : Stacked m s) {i : Nat} (hi : i < m.proc.top) :
    i < ramSize := by
  obtain ⟨size, hl⟩ := h.loaded
  have hram : ramSize = 64000 := rfl
  have hflag : guiFlag = 59903 := rfl
  have htop := hl.top
  have hfits := hl.fits
  omega

/-- A cell that the stack does not use: a register, or RAM outside the stack window. -/
def Exec.Cell.Outside (p : Process) : Exec.Cell → Prop
  | .register _ => True
  | .ram i => ¬ (p.stackLimit.toNat ≤ i ∧ i < p.top)

instance (p : Process) : (c : Exec.Cell) → Decidable (c.Outside p)
  | .register _ => .isTrue trivial
  | .ram i => inferInstanceAs (Decidable (¬ (p.stackLimit.toNat ≤ i ∧ i < p.top)))

namespace Exec

/-- The cell of a data operand, where the stack instructions are promised one:
it exists and the stack does not use it. -/
def dataCell (m : Machine) (arg : RawArgument) : Option Cell :=
  (cellOf m arg).filter fun c => c.Exists ∧ c.Outside m.proc

theorem dataCell_some {m : Machine} {arg : RawArgument} {c : Cell} (h : dataCell m arg = some c) :
    Denotes m arg c ∧ c.Outside m.proc := by
  simp only [dataCell, Option.filter_eq_some_iff, decide_eq_true_eq] at h
  exact ⟨⟨h.1, h.2.1⟩, h.2.2⟩

/-- The bytes `SPUSH` pushes. -/
def pushedBytes (m : Machine) (arg : RawArgument) : Option (List MemCell) :=
  if arg.type = .number then some [lowByte arg.value.toNat]
  else (dataCell m arg).map fun c => if arg.type.isMemory then [0, c.value m] else [c.value m]

/-- The operation of a stack instruction, where its data operand is as promised. -/
def stackOp (m : Machine) : Instruction → Option (Lifo.Op MemCell)
  | .spush arg => (pushedBytes m arg).map .push
  | .spop arg => (dataCell m arg).map fun _ => .pop (stackWidth arg.type)
  | .call arg =>
    if arg.type = .address then some (.push [highByte m.proc.pc.toNat, lowByte m.proc.pc.toNat])
    else none
  | .ret => some (.pop 2)
  | _ => none

/-! ### Pushing and popping -/

/-- The bytes are written below SP, and SP is lowered to them. -/
def pushOnto (m : Machine) (bytes : List MemCell) : Machine :=
  let sp := m.proc.sp - UInt16.ofNat bytes.length
  {m with ram := writeBytes m.ram sp.toNat bytes, proc := {m.proc with sp := sp}}

/-- Control is passed to `pc`. -/
def passedTo (m : Machine) (pc : MemAddr) : Machine := {m with proc := {m.proc with pc := pc}}

/-- SP is raised past `n` bytes. -/
def popOff (m : Machine) (n : Nat) : Machine :=
  {m with proc := {m.proc with sp := m.proc.sp + UInt16.ofNat n}}

section
variable {m : Machine} {s : List MemCell}

/-- SP can be lowered by a word without wrapping, whether the stack has room or not. -/
theorem sp_sub (h : Stacked m s) {n : Nat} (hn : n ≤ 2) :
    (m.proc.sp - UInt16.ofNat n).toNat = m.proc.sp.toNat - n := by
  obtain ⟨size, hl⟩ := h.loaded
  have hsp := h.sp.1
  have hlimit := hl.stackLimit
  rw [UInt16.toNat_sub, UInt16.toNat_ofNat']
  have hlt := m.proc.sp.toNat_lt
  omega

/-- The check of the two pushing instructions, after SP was lowered. -/
theorem overflow_iff (h : Stacked m s) {n : Nat} (hn : n ≤ 2) :
    m.proc.sp - UInt16.ofNat n < m.proc.stackLimit ↔
      VMconf.programStackSizeBytes < n + s.length := by
  have hcap : VMconf.programStackSizeBytes = 1000 := rfl
  obtain ⟨size, hl⟩ := h.loaded
  have hheight := h.height
  have hsp := h.sp.1
  have hlimit := hl.stackLimit
  have htop := hl.top
  rw [UInt16.lt_iff_toNat_lt, sp_sub h hn]
  omega

/-- The check of the two popping instructions. -/
theorem underflow_iff (h : Stacked m s) {n : Nat} :
    m.proc.firstSector.toNat + m.proc.allocatedMemory < m.proc.sp.toNat + n ↔ s.length < n := by
  have hheight := h.height
  unfold Process.top at hheight
  omega

theorem stacked_push (h : Stacked m s) {bytes : List MemCell} (hn : bytes.length ≤ 2)
    (hroom : bytes.length + s.length ≤ VMconf.programStackSizeBytes) :
    Stacked (pushOnto m bytes) (bytes ++ s) := by
  have hsp : (pushOnto m bytes).proc.sp.toNat = m.proc.sp.toNat - bytes.length := sp_sub h hn
  obtain ⟨size, hl⟩ := h.loaded
  have hlimit := hl.stackLimit
  have hlow := h.sp.1
  have hback : m.proc.sp.toNat - bytes.length + bytes.length = m.proc.sp.toNat := by omega
  refine ⟨⟨size, hl.1, hl.2, hl.3, hl.4, hl.5, hl.6⟩, ?_, by rw [List.length_append]; exact hroom, ?_⟩
  · rw [hsp, List.length_append, show (pushOnto m bytes).proc.top = m.proc.top from rfl, ← h.height]
    omega
  · rw [holds_append]
    refine ⟨holds_writeBytes _ _ _, ?_⟩
    rw [hsp, hback]
    exact h.bytes.congr fun j hj _ => writeBytes_above (by rw [sp_sub h hn, hback]; exact hj)

theorem stacked_pop (h : Stacked m s) {n : Nat} (hn : n ≤ s.length) :
    Stacked (popOff m n) (s.drop n) := by
  have hlt : m.proc.top < 65536 := by
    obtain ⟨size, hl⟩ := h.loaded
    have hflag : guiFlag = 59903 := rfl
    have htop := hl.top
    have hfits := hl.fits
    omega
  have hheight := h.height
  have hsp : (popOff m n).proc.sp.toNat = m.proc.sp.toNat + n := by
    show (m.proc.sp + UInt16.ofNat n).toNat = _
    rw [UInt16.toNat_add, UInt16.toNat_ofNat']
    omega
  obtain ⟨size, hl⟩ := h.loaded
  have hbounded := h.bounded
  refine ⟨⟨size, hl.1, hl.2, hl.3, hl.4, hl.5, hl.6⟩, ?_, by rw [List.length_drop]; omega, ?_⟩
  · rw [hsp, List.length_drop, show (popOff m n).proc.top = m.proc.top from rfl]
    omega
  · have hsplit : Holds m.ram m.proc.sp.toNat (s.take n ++ s.drop n) := by
      rw [List.take_append_drop]
      exact h.bytes
    rw [hsp]
    have := (holds_append.mp hsplit).2
    rwa [List.length_take, Nat.min_eq_left hn] at this

/-! ### The four instructions -/

/-- What `SPUSH` puts in its word, split as it is stored. -/
theorem pushedBytes_run {arg : RawArgument} {bytes : List MemCell} (h : pushedBytes m arg = some bytes) :
    ∃ t value, wordValue (arg.type = .number) arg m = .ok value (recorded m t) ∧
      bytes = if stackWidth arg.type = 1 then [lowByte value.toNat]
        else [highByte value.toNat, lowByte value.toNat] := by
  unfold pushedBytes at h
  by_cases hnum : arg.type = .number
  · rw [if_pos hnum] at h
    cases h
    exact ⟨m.touched, arg.value, by rw [wordValue, if_pos hnum]; rfl, by
      rw [if_pos (by rw [hnum]; rfl)]⟩
  · rw [if_neg hnum, Option.map_eq_some_iff] at h
    obtain ⟨c, hc, rfl⟩ := h
    obtain ⟨t, ht⟩ := cellValue_run (dataCell_some hc).1
    refine ⟨t, (c.value m).toUInt16, by rw [wordValue, if_neg hnum, bind_ok ht]; rfl, ?_⟩
    have hlt := (c.value m).toNat_lt
    have hlow : lowByte (c.value m).toUInt16.toNat = c.value m := by
      simp [lowByte]
    have hhigh : highByte (c.value m).toUInt16.toNat = 0 := by
      rw [UInt8.toNat_toUInt16, highByte, Nat.div_eq_of_lt hlt]
      rfl
    rw [hlow, hhigh, stackWidth]
    cases arg.type.isMemory <;> rfl

theorem length_pushedBytes {arg : RawArgument} {bytes : List MemCell} (h : pushedBytes m arg = some bytes) :
    bytes.length = stackWidth arg.type := by
  obtain ⟨t, value, _, rfl⟩ := pushedBytes_run h
  unfold stackWidth
  cases arg.type.isMemory <;> rfl

theorem stackWidth_le (type : ArgType) : 1 ≤ stackWidth type ∧ stackWidth type ≤ 2 := by
  unfold stackWidth
  cases type.isMemory <;> decide

theorem stackWidth_ne {type : ArgType} (h : stackWidth type ≠ 1) : stackWidth type = 2 := by
  have := stackWidth_le type
  omega

/-- Where the pushing instructions write. -/
theorem lowered_lt (h : Stacked m s) {n : Nat} (hn : n ≤ 2) (hpos : 1 ≤ n) :
    (m.proc.sp - UInt16.ofNat n).toNat + (n - 1) < ramSize := by
  have hle := h.sp
  obtain ⟨size, hl⟩ := h.loaded
  have hlimit := hl.stackLimit
  exact h.lt_ramSize (by rw [sp_sub h hn]; omega)

theorem spush_ok (h : Stacked m s) {arg : RawArgument} {bytes : List MemCell}
    (hb : pushedBytes m arg = some bytes)
    (hroom : bytes.length + s.length ≤ VMconf.programStackSizeBytes) :
    Ensures (spush arg) (fun _ m' => ∃ t, m' = recorded (pushOnto m bytes) t) (fun _ _ => False) m := by
  have hlen := length_pushedBytes hb
  have hwidth := stackWidth_le arg.type
  obtain ⟨t, value, hv, hbytes⟩ := pushedBytes_run hb
  have hnot := (not_congr (overflow_iff h hwidth.2)).mpr (by omega)
  have hlt := lowered_lt h hwidth.2 hwidth.1
  unfold spush
  rw [ensures_bind, ensures_of_ok hv]
  simp only [ensures_bind, lowerSP, ensures_modify, ensures_get, ensures_raiseIf, ensures_ite,
    ensures_store, recorded_proc]
  refine ⟨hnot, fun _ => ⟨fun hone => ?_, fun htwo => ?_⟩⟩
  · rw [hone] at hlt hlen ⊢
    rw [if_pos hone] at hbytes
    exact ⟨fun _ => ⟨_, by rw [hbytes]; rfl⟩, fun hge => hge hlt⟩
  · rw [if_neg htwo] at hbytes
    rw [stackWidth_ne htwo] at hlt hlen ⊢
    exact ⟨fun _ => ⟨fun _ => ⟨_, by rw [hbytes]; rfl⟩, fun hge => hge hlt⟩,
      fun hge => hge (Nat.lt_of_succ_lt hlt)⟩

theorem spush_raises (h : Stacked m s) {arg : RawArgument} {bytes : List MemCell}
    (hb : pushedBytes m arg = some bytes)
    (hfull : VMconf.programStackSizeBytes < bytes.length + s.length) :
    Ensures (spush arg) (fun _ _ => False) (fun e _ => e = .throws .stackOverflow) m := by
  have hwidth := stackWidth_le arg.type
  obtain ⟨t, value, hv, _⟩ := pushedBytes_run hb
  rw [length_pushedBytes hb] at hfull
  have hover := (overflow_iff h hwidth.2).mpr hfull
  unfold spush
  rw [ensures_bind, ensures_of_ok hv]
  simp only [ensures_bind, lowerSP, ensures_modify, ensures_get, ensures_raiseIf, recorded_proc]
  exact ⟨fun _ => trivial, fun hnot => absurd hover hnot⟩

theorem call_ok (h : Stacked m s) {arg : RawArgument} (harg : arg.type = .address)
    (hroom : 2 + s.length ≤ VMconf.programStackSizeBytes) :
    Ensures (call arg) (fun _ m' => ∃ t, m' = recorded (passedTo
        (pushOnto m [highByte m.proc.pc.toNat, lowByte m.proc.pc.toNat]) arg.value) t)
      (fun _ _ => False) m := by
  have hnot := (not_congr (overflow_iff h (Nat.le_refl 2))).mpr (by omega)
  have hlt := lowered_lt h (Nat.le_refl 2) (by decide)
  unfold call
  simp only [ensures_bind, lowerSP, ensures_modify, ensures_get, ensures_raiseIf, ensures_store]
  refine ⟨fun hne => hne harg, fun _ => ⟨hnot, fun _ => ⟨fun _ => ⟨fun _ => ⟨_, rfl⟩, ?_⟩, ?_⟩⟩⟩
  · exact fun hge => hge hlt
  · exact fun hge => hge (Nat.lt_of_succ_lt hlt)

theorem call_raises (h : Stacked m s) {arg : RawArgument} (harg : arg.type = .address)
    (hfull : VMconf.programStackSizeBytes < 2 + s.length) :
    Ensures (call arg) (fun _ _ => False) (fun e _ => e = .throws .stackOverflow) m := by
  have hover := (overflow_iff h (Nat.le_refl 2)).mpr hfull
  unfold call
  simp only [ensures_bind, lowerSP, ensures_modify, ensures_get, ensures_raiseIf]
  exact ⟨fun hne => absurd harg hne, fun _ => ⟨fun _ => trivial, fun hnot => absurd hover hnot⟩⟩

theorem word_toUInt8 (high low : MemCell) : (word high low).toUInt8 = low := by
  apply UInt8.toNat_inj.mp
  have := low.toNat_lt
  rw [UInt16.toNat_toUInt8, word_toNat]
  omega

/-- The bytes of the stack, in RAM. -/
theorem stack_byte (h : Stacked m s) {k : Nat} (hk : k < s.length) :
    m.proc.sp.toNat + k < ramSize ∧ m.ram (m.proc.sp.toNat + k) = s[k] :=
  ⟨h.lt_ramSize (by rw [← h.height]; omega), holds_iff.mp h.bytes k hk⟩

/-- The destination of `SPOP` is assigned, and SP is raised. -/
theorem deliver {t : List Access} {arg : RawArgument} {c : Cell} {v : MemCell} {n : Nat}
    {Q : Unit → Machine → Prop} {E : Stop → Machine → Prop} (hd : Denotes m arg c)
    (hQ : ∀ u, Q () (recorded (popOff (put m v c) n) u)) :
    Ensures (resolveWriteableArg arg.type arg.value)
      (fun c m' => Ensures (c.write v) (fun _ m' => Ensures (raiseSP n) Q E m') E m') E
      (recorded m t) := by
  obtain ⟨u, hu⟩ := resolve_run (m := recorded m t) hd.cell
  obtain ⟨w, hw⟩ := write_run (m := recorded m u) (v := v) hd.live
  refine (ensures_of_ok hu).mpr ((ensures_of_ok hw).mpr ?_)
  cases c <;> exact hQ w

/-- `SPOP` delivers the last of the bytes it pops: of a word, the low one. -/
theorem spop_ok (h : Stacked m s) {arg : RawArgument} {c : Cell} (hc : dataCell m arg = some c)
    (hn : stackWidth arg.type ≤ s.length) :
    Ensures (spop arg) (fun _ m' => ∃ t v, s[stackWidth arg.type - 1]? = some v ∧
      m' = recorded (popOff (put m v c) (stackWidth arg.type)) t) (fun _ _ => False) m := by
  obtain ⟨hdenotes, _⟩ := dataCell_some hc
  have hwidth := stackWidth_le arg.type
  have hnot := (not_congr (underflow_iff h)).mpr (by omega : ¬ s.length < stackWidth arg.type)
  obtain ⟨hlt₀, hbyte₀⟩ := stack_byte h (show 0 < s.length by omega)
  rw [Nat.add_zero] at hlt₀ hbyte₀
  unfold spop
  simp only [ensures_bind, ensures_get, ensures_raiseIf, ensures_ite, ensures_load]
  refine ⟨hnot, fun _ => ⟨fun hone => ?_, fun htwo => ?_⟩⟩
  · refine ⟨fun _ => deliver hdenotes fun u => ⟨u, _, ?_, rfl⟩, fun hge => hge hlt₀⟩
    rw [hone, hbyte₀]
    exact List.getElem?_eq_getElem _
  · have hw := stackWidth_ne htwo
    obtain ⟨hlt₁, hbyte₁⟩ := stack_byte h (show 1 < s.length by omega)
    refine ⟨fun _ => ⟨fun _ => deliver hdenotes fun u => ⟨u, _, ?_, rfl⟩, fun hge => hge hlt₁⟩,
      fun hge => hge hlt₀⟩
    rw [hw, word_toUInt8, hbyte₁]
    exact List.getElem?_eq_getElem _

theorem spop_raises (h : Stacked m s) {arg : RawArgument} (hn : s.length < stackWidth arg.type) :
    Ensures (spop arg) (fun _ _ => False) (fun e _ => e = .throws .stackUnderflow) m := by
  have hunder := (underflow_iff h).mpr hn
  unfold spop
  simp only [ensures_bind, ensures_get, ensures_raiseIf]
  exact ⟨fun _ => trivial, fun hnot => absurd hunder hnot⟩

theorem ret_ok (h : Stacked m s) (hn : 2 ≤ s.length) :
    Ensures ret (fun _ m' => ∃ t, m' = recorded (passedTo (popOff m 2) (word s[0] s[1])) t)
      (fun _ _ => False) m := by
  have hnot := (not_congr (underflow_iff h)).mpr (by omega : ¬ s.length < 2)
  obtain ⟨hlt₀, hbyte₀⟩ := stack_byte h (show 0 < s.length by omega)
  obtain ⟨hlt₁, hbyte₁⟩ := stack_byte h (show 1 < s.length by omega)
  rw [Nat.add_zero] at hlt₀ hbyte₀
  unfold ret
  simp only [ensures_bind, ensures_get, ensures_raiseIf, ensures_load, raiseSP, ensures_modify]
  rw [← hbyte₀, ← hbyte₁]
  exact ⟨hnot, fun _ => ⟨fun _ => ⟨fun _ => ⟨_, rfl⟩, fun hge => hge hlt₁⟩, fun hge => hge hlt₀⟩⟩

theorem ret_raises (h : Stacked m s) (hn : s.length < 2) :
    Ensures ret (fun _ _ => False) (fun e _ => e = .throws .stackUnderflow) m := by
  have hunder := (underflow_iff h).mpr hn
  unfold ret
  simp only [ensures_bind, ensures_get, ensures_raiseIf]
  exact ⟨fun _ => trivial, fun hnot => absurd hunder hnot⟩

/-! ### One step -/

/-- What a stack instruction does besides moving SP, from the stack `s`: where control
goes, what is delivered, and that nothing else changes. -/
def StackEffect (m : Machine) (s : List MemCell) (m' : Machine) : Instruction → Prop
  | .spush _ => m'.proc.pc = (fetched m).proc.pc ∧ m'.registers = m.registers ∧
      ∀ i, ¬ (m'.proc.sp.toNat ≤ i ∧ i < m.proc.sp.toNat) → m'.ram i = m.ram i
  | .spop arg => m'.proc.pc = (fetched m).proc.pc ∧
      ∃ c v, dataCell (fetched m) arg = some c ∧ s[stackWidth arg.type - 1]? = some v ∧
        m'.registers = (put m v c).registers ∧ m'.ram = (put m v c).ram
  | .call arg => m'.proc.pc = arg.value ∧ m'.registers = m.registers ∧
      ∀ i, ¬ (m'.proc.sp.toNat ≤ i ∧ i < m.proc.sp.toNat) → m'.ram i = m.ram i
  | .ret => (∃ high low, s[0]? = some high ∧ s[1]? = some low ∧ m'.proc.pc = word high low) ∧
      m'.registers = m.registers ∧ m'.ram = m.ram
  | _ => True

theorem pushOnto_outside (h : Stacked m s) {bytes : List MemCell} (hn : bytes.length ≤ 2) {i : Nat}
    (hi : ¬ ((pushOnto m bytes).proc.sp.toNat ≤ i ∧ i < m.proc.sp.toNat)) :
    (pushOnto m bytes).ram i = m.ram i := by
  have hsp := sp_sub h hn
  have hlow := h.sp.1
  obtain ⟨size, hl⟩ := h.loaded
  have hlimit := hl.stackLimit
  rw [show (pushOnto m bytes).proc.sp = m.proc.sp - UInt16.ofNat bytes.length from rfl] at hi
  show writeBytes m.ram _ bytes i = _
  by_cases hlt : i < (m.proc.sp - UInt16.ofNat bytes.length).toNat
  · exact writeBytes_below hlt
  · exact writeBytes_above (by omega)

end

/-- The machine at the start of a turn of the loop and after the fetch have one stack. -/
theorem stacked_fetched {m : Machine} {s : List MemCell} (h : Stacked m s) : Stacked (fetched m) s :=
  h.congr (fetched_layout m) rfl fun _ _ _ => rfl

/-- The row counter is no part of the stack. -/
theorem stacked_row {m : Machine} {s : List MemCell} (h : Stacked m s) (row : Nat) (t : List Access) :
    Stacked {recorded m t with row := row} s :=
  h.congr ⟨rfl, rfl, rfl, rfl, rfl, rfl, rfl, rfl⟩ rfl fun _ _ _ => rfl

/-- An assignment to a cell that the stack does not use. -/
theorem stacked_put {m : Machine} {s : List MemCell} (h : Stacked m s) {c : Cell} {v : MemCell}
    (hc : c.Outside m.proc) : Stacked (put m v c) s := by
  cases c with
  | register r => exact h.congr ⟨rfl, rfl, rfl, rfl, rfl, rfl, rfl, rfl⟩ rfl fun _ _ _ => rfl
  | ram j =>
    refine h.congr ⟨rfl, rfl, rfl, rfl, rfl, rfl, rfl, rfl⟩ rfl fun i hi hi' => ?_
    refine Function.update_of_ne (fun heq => hc ⟨?_, ?_⟩) _ _
    · rw [← heq]; exact h.sp.1.trans hi
    · rw [← heq]; exact hi'

end Exec

open Exec

/-- The exception a fault of the stack is reported by. -/
def faultError : Lifo.Fault → Error
  | .overflow => .stackOverflow
  | .underflow => .stackUnderflow

/-- How a turn of the loop carries out an operation on the stack `s`. -/
def CarriesOut (m : Machine) (s : List MemCell) (op : Lifo.Op MemCell) : Prop :=
  match Lifo.apply VMconf.programStackSizeBytes s op with
  | .ok s' => ∃ m', m.next = .ok m' ∧ Stacked m' s' ∧ StackEffect m s m' (current m)
  | .error fault => m.next = .error (.stopped (.throws (faultError fault)))

theorem carriesOut_ok {m m' : Machine} {s s' : List MemCell} {op : Lifo.Op MemCell}
    (ha : Lifo.apply VMconf.programStackSizeBytes s op = .ok s') (hnext : m.next = .ok m')
    (hs : Stacked m' s') (he : StackEffect m s m' (current m)) : CarriesOut m s op := by
  rw [CarriesOut, ha]
  exact ⟨m', hnext, hs, he⟩

theorem carriesOut_error {m : Machine} {s : List MemCell} {op : Lifo.Op MemCell} {fault : Lifo.Fault}
    (ha : Lifo.apply VMconf.programStackSizeBytes s op = .error fault)
    (hnext : m.next = .error (.stopped (.throws (faultError fault)))) : CarriesOut m s op := by
  rw [CarriesOut, ha]
  exact hnext

section
variable {m : Machine} {s : List MemCell} (h : Stacked m s) (hgo : m.goesOn = true)
include h hgo

theorem spush_step {arg : RawArgument} {bytes : List MemCell} (hi : current m = .spush arg)
    (hb : pushedBytes (fetched m) arg = some bytes) : CarriesOut m s (.push bytes) := by
  obtain ⟨size, hl⟩ := h.loaded
  have hf := stacked_fetched h
  have hwidth : bytes.length ≤ 2 := (length_pushedBytes hb).trans_le (stackWidth_le _).2
  by_cases hroom : bytes.length + s.length ≤ VMconf.programStackSizeBytes
  · obtain ⟨_, ⟨t, rfl⟩, hnext⟩ := Machine.next_returns hl hgo (by rw [hi]; exact spush_ok hf hb hroom)
    refine carriesOut_ok (if_pos hroom) hnext (stacked_row (stacked_push hf hwidth hroom) _ t) ?_
    rw [hi]
    exact ⟨rfl, rfl, fun i hout => pushOnto_outside hf hwidth hout⟩
  · refine carriesOut_error (if_neg hroom) (Machine.next_raises hl hgo ?_)
    rw [hi]
    exact spush_raises hf hb (Nat.lt_of_not_le hroom)

theorem call_step {arg : RawArgument} (hi : current m = .call arg) (harg : arg.type = .address) :
    CarriesOut m s
      (.push [highByte (fetched m).proc.pc.toNat, lowByte (fetched m).proc.pc.toNat]) := by
  obtain ⟨size, hl⟩ := h.loaded
  have hf := stacked_fetched h
  have htwo : [highByte (fetched m).proc.pc.toNat, lowByte (fetched m).proc.pc.toNat].length ≤ 2 :=
    Nat.le_refl 2
  by_cases hroom : 2 + s.length ≤ VMconf.programStackSizeBytes
  · obtain ⟨_, ⟨t, rfl⟩, hnext⟩ := Machine.next_returns hl hgo (by rw [hi]; exact call_ok hf harg hroom)
    refine carriesOut_ok (if_pos hroom) hnext ?_ ?_
    · exact (stacked_push hf htwo hroom).congr ⟨rfl, rfl, rfl, rfl, rfl, rfl, rfl, rfl⟩ rfl
        fun _ _ _ => rfl
    · rw [hi]
      exact ⟨rfl, rfl, fun i hout => pushOnto_outside hf htwo hout⟩
  · refine carriesOut_error (if_neg hroom) (Machine.next_raises hl hgo ?_)
    rw [hi]
    exact call_raises hf harg (Nat.lt_of_not_le hroom)

theorem spop_step {arg : RawArgument} {c : Cell} (hi : current m = .spop arg)
    (hc : dataCell (fetched m) arg = some c) : CarriesOut m s (.pop (stackWidth arg.type)) := by
  obtain ⟨size, hl⟩ := h.loaded
  have hf := stacked_fetched h
  by_cases hn : stackWidth arg.type ≤ s.length
  · obtain ⟨_, ⟨t, v, hv, rfl⟩, hnext⟩ :=
      Machine.next_returns hl hgo (by rw [hi]; exact spop_ok hf hc hn)
    refine carriesOut_ok (if_pos hn) hnext ?_ ?_
    · exact stacked_row (stacked_pop (stacked_put hf (dataCell_some hc).2) hn) _ t
    · rw [hi]
      refine ⟨?_, c, v, hc, hv, ?_, ?_⟩ <;> cases c <;> rfl
  · refine carriesOut_error (if_neg hn) (Machine.next_raises hl hgo ?_)
    rw [hi]
    exact spop_raises hf (Nat.lt_of_not_le hn)

theorem ret_step (hi : current m = .ret) : CarriesOut m s (.pop 2) := by
  obtain ⟨size, hl⟩ := h.loaded
  have hf := stacked_fetched h
  by_cases hn : 2 ≤ s.length
  · obtain ⟨_, ⟨t, rfl⟩, hnext⟩ := Machine.next_returns hl hgo (by rw [hi]; exact ret_ok hf hn)
    refine carriesOut_ok (if_pos hn) hnext ?_ ?_
    · exact (stacked_pop hf hn).congr ⟨rfl, rfl, rfl, rfl, rfl, rfl, rfl, rfl⟩ rfl fun _ _ _ => rfl
    · rw [hi]
      exact ⟨⟨s[0], s[1], List.getElem?_eq_getElem _, List.getElem?_eq_getElem _, rfl⟩, rfl, rfl⟩
  · refine carriesOut_error (if_neg hn) (Machine.next_raises hl hgo ?_)
    rw [hi]
    exact ret_raises hf (Nat.lt_of_not_le hn)

/-- A turn of the loop at a stack instruction carries out its operation. -/
theorem stack_step {op : Lifo.Op MemCell} (hop : stackOp (fetched m) (current m) = some op) :
    CarriesOut m s op := by
  cases hi : current m with
  | spush arg =>
    rw [hi, stackOp, Option.map_eq_some_iff] at hop
    obtain ⟨bytes, hb, rfl⟩ := hop
    exact spush_step h hgo hi hb
  | spop arg =>
    rw [hi, stackOp, Option.map_eq_some_iff] at hop
    obtain ⟨c, hc, rfl⟩ := hop
    exact spop_step h hgo hi hc
  | call arg =>
    rw [hi, stackOp] at hop
    split at hop
    · cases hop
      exact call_step h hgo hi ‹_›
    · cases hop
  | ret =>
    rw [hi, stackOp] at hop
    cases hop
    exact ret_step h hgo hi
  | _ =>
    rw [hi, stackOp] at hop
    · cases hop
    all_goals nofun

end

/-! ### Runs -/

/-- A run by stack instructions, with the operations they stand for. In between,
anything may happen that leaves the layout, SP and the bytes above SP alone. -/
inductive StackRun : Machine → List (Lifo.Op MemCell) → Machine → Prop
  | start (m : Machine) : StackRun m [] m
  | stack {m m₁ m₂ : Machine} {ops : List (Lifo.Op MemCell)} {op : Lifo.Op MemCell}
      (h : StackRun m ops m₁) (hop : stackOp (fetched m₁) (current m₁) = some op)
      (hnext : m₁.next = .ok m₂) : StackRun m (ops ++ [op]) m₂
  | other {m m₁ m₂ : Machine} {ops : List (Lifo.Op MemCell)} (h : StackRun m ops m₁)
      (hlayout : m₁.proc.SameLayout m₂.proc) (hsp : m₂.proc.sp = m₁.proc.sp)
      (hram : ∀ i, m₁.proc.sp.toNat ≤ i → i < m₁.proc.top → m₂.ram i = m₁.ram i) :
      StackRun m ops m₂

theorem StackRun.layout {m m' : Machine} {ops : List (Lifo.Op MemCell)} (h : StackRun m ops m') :
    m.proc.SameLayout m'.proc := by
  induction h with
  | start => exact .refl _
  | stack _ _ hnext ih => exact ih.trans (Machine.keeps_next hnext).layout
  | other _ hlayout _ _ ih => exact ih.trans hlayout

/-- A turn of the loop that goes on at a stack instruction, seen from its result. -/
theorem stack_next {m m' : Machine} {s : List MemCell} {op : Lifo.Op MemCell} (h : Stacked m s)
    (hop : stackOp (fetched m) (current m) = some op) (hnext : m.next = .ok m') :
    ∃ s', Lifo.apply VMconf.programStackSizeBytes s op = .ok s' ∧ Stacked m' s' ∧
      StackEffect m s m' (current m) := by
  have hstep := stack_step h (Machine.next_ok hnext).1 hop
  rw [CarriesOut] at hstep
  cases ha : Lifo.apply VMconf.programStackSizeBytes s op with
  | ok s' =>
    rw [ha] at hstep
    obtain ⟨_, hok, hs, he⟩ := hstep
    rw [hnext] at hok
    cases hok
    exact ⟨s', rfl, hs, he⟩
  | error fault =>
    rw [ha, hnext] at hstep
    cases hstep

/-- A run keeps the bytes above SP and the stack of its operations equal. -/
theorem stackRun_stacked {m m' : Machine} {s : List MemCell} {ops : List (Lifo.Op MemCell)}
    (hrun : StackRun m ops m') (h : Stacked m s) :
    ∃ s', Lifo.exec VMconf.programStackSizeBytes s ops = .ok s' ∧ Stacked m' s' := by
  induction hrun with
  | start => exact ⟨s, rfl, h⟩
  | stack _ hop hnext ih =>
    obtain ⟨s', hexec, hs'⟩ := ih
    obtain ⟨s'', ha, hs'', _⟩ := stack_next hs' hop hnext
    refine ⟨s'', ?_, hs''⟩
    rw [Lifo.exec_append, hexec]
    simp only [Except.bind, Lifo.exec, ha]
  | other _ hlayout hsp hram ih =>
    obtain ⟨s', hexec, hs'⟩ := ih
    exact ⟨s', hexec, hs'.congr hlayout hsp hram⟩

/-- A process as the loader returns it has an empty stack. -/
theorem stacked_load {vm vm' : VM} {procs : List Process} {bytecode : List MemCell} {p : Process}
    (hs : Session vm procs) (hload : vm.load bytecode = .ok (p, vm')) (cin : Stdin) (handle : Window)
    (events : List WindowEvent) : Stacked (.boot vm' p cin handle events) [] := by
  obtain ⟨hl, hsp⟩ := hs.load_loaded hload
  exact ⟨⟨_, hl⟩, hsp, Nat.zero_le _, trivial⟩

/-- `ops` lead from behind the `CALL` at `m` to its matching `RET` at `m'`: SP was never
above where the call left it, and it is there again. -/
structure Matching (m m' : Machine) (s : List MemCell) (ops : List (Lifo.Op MemCell)) : Prop where
  above : Lifo.Above VMconf.programStackSizeBytes (s.length + 2)
    (highByte (fetched m).proc.pc.toNat :: lowByte (fetched m).proc.pc.toNat :: s) ops
  back : m'.proc.sp.toNat + 2 = m.proc.sp.toNat
  ret : current m' = .ret

/-- A matched `RET` resumes behind its `CALL`. -/
theorem ret_resumes {m m₁ m₂ m₃ : Machine} {s : List MemCell} {ops : List (Lifo.Op MemCell)}
    {arg : RawArgument} (h : Stacked m s) (hcall : current m = .call arg) (harg : arg.type = .address)
    (hnext : m.next = .ok m₁) (hrun : StackRun m₁ ops m₂) (hmatch : Matching m m₂ s ops)
    (hret : m₂.next = .ok m₃) : m₃.proc.pc = (fetched m).proc.pc ∧ Stacked m₃ s := by
  have hop : stackOp (fetched m) (current m) = some
      (.push [highByte (fetched m).proc.pc.toNat, lowByte (fetched m).proc.pc.toNat]) := by
    rw [hcall, stackOp, if_pos harg]
  obtain ⟨s₁, ha, hs₁, _⟩ := stack_next h hop hnext
  simp only [Lifo.apply] at ha
  split at ha
  · cases ha
    obtain ⟨t, hexec, ht⟩ := stackRun_stacked hrun hs₁
    have hlen : t.length = s.length + 2 := by
      have h₁ := h.height
      have h₂ := ht.height
      have htop := ((Machine.keeps_next hnext).layout.trans hrun.layout).top
      have hback := hmatch.back
      omega
    obtain rfl := Lifo.matched hexec hmatch.above hlen
    obtain ⟨s₃, ha₃, hs₃, he⟩ := stack_next ht (by rw [hmatch.ret]; rfl) hret
    rw [hmatch.ret] at he
    obtain ⟨⟨high, low, hhigh, hlow, hpc⟩, _⟩ := he
    cases hhigh
    cases hlow
    cases ha₃
    refine ⟨?_, hs₃⟩
    rw [hpc]
    exact UInt16.toNat_inj.mp (word_bytes _ (UInt16.toNat_lt _))
  · cases ha

/-- What holds of the stack at a point of a run. -/
structure StackLaw (m : Machine) (s : List MemCell) : Prop where
  stacked : Stacked m s
  window : m.proc.stackLimit.toNat ≤ m.proc.sp.toNat ∧ m.proc.sp.toNat ≤ m.proc.top
  step : m.goesOn = true → ∀ op, stackOp (fetched m) (current m) = some op → CarriesOut m s op
  resume : ∀ arg m₁ m₂ m₃ ops, current m = .call arg → arg.type = .address → m.next = .ok m₁ →
    StackRun m₁ ops m₂ → Matching m m₂ s ops → m₂.next = .ok m₃ →
    m₃.proc.pc = (fetched m).proc.pc ∧ Stacked m₃ s

theorem stackLaw {m : Machine} {s : List MemCell} (h : Stacked m s) : StackLaw m s where
  stacked := h
  window := h.sp
  step hgo _ hop := stack_step h hgo hop
  resume _ _ _ _ _ hcall harg hnext hrun hmatch hret := ret_resumes h hcall harg hnext hrun hmatch hret

/-- **The stack of a loaded process is a bounded LIFO of bytes.** In every run by stack
instructions the bytes from SP to the top of the segment are the stack of their
operations, the next one is carried out on it or raises its fault, and a `RET`
resumes behind the `CALL` it matches. -/
theorem stack_is_lifo {vm vm' : VM} {procs : List Process} {bytecode : List MemCell} {p : Process}
    (hs : Session vm procs) (hload : vm.load bytecode = .ok (p, vm')) (cin : Stdin) (handle : Window)
    (events : List WindowEvent) {ops : List (Lifo.Op MemCell)} {m : Machine}
    (hrun : StackRun (.boot vm' p cin handle events) ops m) :
    ∃ s, Lifo.exec VMconf.programStackSizeBytes [] ops = .ok s ∧ StackLaw m s := by
  obtain ⟨s, hexec, h⟩ := stackRun_stacked hrun (stacked_load hs hload cin handle events)
  exact ⟨s, hexec, stackLaw h⟩

/-- `CALL 7` and `HALT`; at 7 `SPUSH 7`, `SPOP A`, `RET`. -/
def callPushPop : List MemCell := [0, 2, 0xB1, 2, 0, 7, 0xFF, 0x81, 0, 7, 0x91, 1, 1, 0x20]

def callMachine : Machine := .boot (freshVM callPushPop) (freshProcess callPushPop) ⟨[], false⟩ .null []

/-- The machine in the subroutine, once it has popped what it has pushed. -/
def popped : Machine := callMachine.nextOr.nextOr.nextOr

theorem popped_run {m : Machine} {ops : List (Lifo.Op MemCell)} (h : StackRun m ops callMachine.nextOr) :
    StackRun m (ops ++ [.push [7]] ++ [.pop 1]) popped := by
  have hpushed : StackRun m (ops ++ [.push [7]]) callMachine.nextOr.nextOr :=
    h.stack (by decide +kernel) (Machine.nextOr_ok (by decide +kernel))
  exact hpushed.stack (by decide +kernel) (Machine.nextOr_ok (by decide +kernel))

/-- The `RET` finds the address that the `CALL` has pushed. -/
theorem stack_is_lifo_call : ∃ m, StackRun callMachine [.push [0, 6], .push [7], .pop 1, .pop 2] m ∧
    StackLaw m [] ∧ m.proc.pc = 6 ∧ m.registers 0 = 7 := by
  have hload := load_fresh (show callPushPop.length + 2000 ≤ guiFlag by decide)
  have hcurrent : current callMachine = .call ⟨.address, 7⟩ := by decide
  have hcall : callMachine.next = .ok callMachine.nextOr := Machine.nextOr_ok (by decide +kernel)
  have hret : popped.next = .ok popped.nextOr := Machine.nextOr_ok (by decide +kernel)
  have habove : Lifo.Above VMconf.programStackSizeBytes 2 [(0 : MemCell), 6] [.push [7], .pop 1] :=
    ⟨by decide, by decide, show 2 ≤ 2 by decide⟩
  have hmatching : Matching callMachine popped [] [.push [7], .pop 1] :=
    ⟨habove, by decide +kernel, by decide +kernel⟩
  have hcalled : StackRun callMachine [.push [0, 6]] callMachine.nextOr := (StackRun.start _).stack (by decide) hcall
  have hrun : StackRun callMachine [.push [0, 6], .push [7], .pop 1, .pop 2] popped.nextOr :=
    (popped_run hcalled).stack (by decide +kernel) hret
  obtain ⟨s, hexec, hlaw⟩ := stack_is_lifo .fresh hload ⟨[], false⟩ .null [] hrun
  obtain ⟨_, hstart, hresume⟩ := stack_is_lifo .fresh hload ⟨[], false⟩ .null [] (.start _)
  cases hexec
  cases hstart
  refine ⟨_, hrun, hlaw, ?_, by decide +kernel⟩
  rw [(hresume.resume _ _ _ _ _ hcurrent rfl hcall (popped_run (.start _)) hmatching hret).1]
  decide

end CustomIsaVm
