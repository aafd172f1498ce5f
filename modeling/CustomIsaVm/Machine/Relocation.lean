import CustomIsaVm.Machine.Isolation

/-! Running at another address.

`Relocated m m'` says that two machines run the same image in segments of their own:
all that a program can see relative to its first sector is equal. Most instructions
keep it (`alike_perform`), as long as they are confined to the segment. Four do not:
`CALL` and `RET` pass absolute addresses, `HFREE` takes one, and `HALLOC` delivers the
low byte of one. A run without them comes to the same wherever it is loaded
(`relocation`). -/
namespace CustomIsaVm

open Effect Exec

/-! ### The relation -/

structure Relocated (m m' : Machine) : Prop where
  loaded : ∃ size, Loaded size m.proc ∧ Loaded size m'.proc
  running : m'.proc.running = m.proc.running
  pc : m'.proc.pc - m'.proc.firstSector = m.proc.pc - m.proc.firstSector
  sp : m'.proc.sp - m'.proc.firstSector = m.proc.sp - m.proc.firstSector
  registers : m'.registers = m.registers
  zero : m'.zero = m.zero
  sign : m'.sign = m.sign
  cin : m'.cin = m.cin
  cout : m'.cout = m.cout
  row : m'.row = m.row
  segment : ∀ k < m.proc.allocatedMemory,
    m'.ram (m'.proc.firstSector.toNat + k) = m.ram (m.proc.firstSector.toNat + k)
  headless : m.getGui = false ∧ m'.getGui = false
  window : m.window = .uninitialised ∧ m'.window = .uninitialised

variable {m m' : Machine}

theorem Relocated.record (h : Relocated m m') (t t' : List Access) :
    Relocated (recorded m t) (recorded m' t') :=
  ⟨h.loaded, h.running, h.pc, h.sp, h.registers, h.zero, h.sign, h.cin, h.cout, h.row, h.segment,
    h.headless, h.window⟩

/-- PC, SP and the running flag may change on both sides alike. -/
theorem Relocated.proc (h : Relocated m m') {p p' : Process} (hl : m.proc.SameLayout p)
    (hl' : m'.proc.SameLayout p') (hrunning : p'.running = p.running)
    (hpc : p'.pc - p'.firstSector = p.pc - p.firstSector)
    (hsp : p'.sp - p'.firstSector = p.sp - p.firstSector) :
    Relocated {m with proc := p} {m' with proc := p'} := by
  obtain ⟨size, h₁, h₂⟩ := h.loaded
  refine ⟨⟨size, hl.loaded h₁, hl'.loaded h₂⟩, hrunning, hpc, hsp, h.registers, h.zero, h.sign, h.cin,
    h.cout, h.row, fun k hk => ?_, h.headless, h.window⟩
  have hsegment := h.segment k (by rw [← hl.allocatedMemory]; exact hk)
  rw [← hl.firstSector, ← hl'.firstSector] at hsegment
  exact hsegment

/-- The two segments have one length, and addresses do not wrap in them. -/
theorem Relocated.bounds (h : Relocated m m') : m'.proc.allocatedMemory = m.proc.allocatedMemory ∧
    m.proc.firstSector.toNat + m.proc.allocatedMemory ≤ guiFlag ∧
    m'.proc.firstSector.toNat + m.proc.allocatedMemory ≤ guiFlag := by
  obtain ⟨size, hl, hl'⟩ := h.loaded
  have h₁ := hl.allocated
  have h₂ := hl'.allocated
  have h₃ := hl.fits
  have h₄ := hl'.fits
  omega

/-- An address of the first segment, as an offset, and the address in the second. -/
theorem Relocated.offset (h : Relocated m m') {a a' : MemAddr}
    (heq : a' - m'.proc.firstSector = a - m.proc.firstSector)
    (hlow : m.proc.firstSector.toNat ≤ a.toNat) (hhigh : a.toNat ≤ m.proc.top) :
    ∃ k ≤ m.proc.allocatedMemory, a.toNat = m.proc.firstSector.toNat + k ∧
      a'.toNat = m'.proc.firstSector.toNat + k := by
  have hflag : guiFlag = 59903 := rfl
  obtain ⟨hsame, hfits, hfits'⟩ := h.bounds
  have hnat := congrArg UInt16.toNat heq
  rw [UInt16.toNat_sub, UInt16.toNat_sub] at hnat
  have h₁ := a.toNat_lt
  have h₂ := a'.toNat_lt
  unfold Process.top at hhigh
  refine ⟨a.toNat - m.proc.firstSector.toNat, by omega, by omega, by omega⟩

/-- A memory operand inside the segment is an offset into it. -/
theorem Relocated.relative (h : Relocated m m') {v : MemAddr}
    (hin : m.proc.Segment (v + m.proc.firstSector).toNat) : v.toNat < m.proc.allocatedMemory ∧
      (v + m.proc.firstSector).toNat = m.proc.firstSector.toNat + v.toNat ∧
      (v + m'.proc.firstSector).toNat = m'.proc.firstSector.toNat + v.toNat := by
  have hflag : guiFlag = 59903 := rfl
  obtain ⟨hsame, hfits, hfits'⟩ := h.bounds
  obtain ⟨hlow, hhigh⟩ := hin
  unfold Process.top at hhigh
  rw [UInt16.toNat_add] at hlow hhigh ⊢
  rw [UInt16.toNat_add]
  have h₁ := v.toNat_lt
  omega

/-! ### Reading -/

/-- The same register, or the same place in the segment. -/
inductive SameCell (p p' : Process) : Cell → Cell → Prop
  | register (r : Fin 5) : SameCell p p' (.register r) (.register r)
  | ram (k : Nat) (h : k < p.allocatedMemory) :
      SameCell p p' (.ram (p.firstSector.toNat + k)) (.ram (p'.firstSector.toNat + k))

/-- Both complete, and `Q` holds, or both stop for the same reason. -/
abbrev Agree {α β : Type} (x : Exec α) (y : Exec β) (Q : α → β → Machine → Machine → Prop)
    (m m' : Machine) : Prop := Alike x y Q (fun _ _ => True) m m'

/-- What was read is related as `R` says, and nothing but the record has changed. -/
def Both {α β : Type} (m m' : Machine) (R : α → β → Prop) (a : α) (b : β) (s s' : Machine) : Prop :=
  R a b ∧ ∃ t t', s = recorded m t ∧ s' = recorded m' t'

section
variable {α β γ δ : Type} {Q : α → β → Machine → Machine → Prop}

theorem Both.refl {R : α → β → Prop} {a : α} {b : β} (h : R a b) : Both m m' R a b m m' :=
  ⟨h, m.touched, m'.touched, rfl, rfl⟩

/-- What follows a reading. -/
theorem agree_bind {R : α → β → Prop} {x : Exec α} {y : Exec β} {f : α → Exec γ} {g : β → Exec δ}
    {Q : γ → δ → Machine → Machine → Prop} (h : Agree x y (Both m m' R) m m')
    (hf : ∀ a b t t', R a b → Agree (f a) (g b) Q (recorded m t) (recorded m' t')) :
    Agree (x >>= f) (y >>= g) Q m m' := by
  refine .bind (h.mono fun a b s s' hab => ?_)
  obtain ⟨hR, t, t', rfl, rfl⟩ := hab
  exact hf a b t t' hR

theorem agree_get {f : Machine → Exec α} {g : Machine → Exec β} (hf : Agree (f m) (g m') Q m m') :
    Agree (get >>= f) (get >>= g) Q m m' := hf

/-- Both runs read the same byte. -/
theorem agree_load (h : Relocated m m') (access access' : Nat → Access) {k : Nat}
    (hk : k < m.proc.allocatedMemory) :
    Agree (load access (m.proc.firstSector.toNat + k)) (load access' (m'.proc.firstSector.toNat + k))
      (Both m m' fun v v' => v = m.ram (m.proc.firstSector.toNat + k) ∧ v' = v) m m' := by
  have hflag : guiFlag = 59903 := rfl
  have hram : ramSize = 64000 := rfl
  obtain ⟨_, hfits, hfits'⟩ := h.bounds
  obtain ⟨t, ht⟩ := load_run (m := m) access (show m.proc.firstSector.toNat + k < ramSize by omega)
  obtain ⟨u, hu⟩ := load_run (m := m') access' (show m'.proc.firstSector.toNat + k < ramSize by omega)
  unfold Agree Alike
  rw [ht, hu]
  exact ⟨⟨rfl, h.segment k hk⟩, t, u, rfl, rfl⟩

theorem agree_registerIndex (arg : MemAddr) :
    Agree (registerIndex arg) (registerIndex arg) (Both m m' fun r r' => registerOf arg = some r ∧ r' = r)
      m m' := by
  unfold registerIndex registerOf
  split
  · exact Both.refl ⟨rfl, rfl⟩
  · exact ⟨rfl, trivial⟩

theorem agree_resolve (h : Relocated m m') {arg : RawArgument} (hin : OperandIn m arg) :
    Agree (resolveWriteableArg arg.type arg.value) (resolveWriteableArg arg.type arg.value)
      (Both m m' (SameCell m.proc m'.proc)) m m' := by
  obtain ⟨type, value⟩ := arg
  cases type with
  | register =>
    refine agree_bind (agree_registerIndex _) fun r r' t t' hr => ?_
    obtain ⟨_, rfl⟩ := hr
    exact ⟨.register r', t, t', rfl, rfl⟩
  | address =>
    obtain ⟨hk, ha, ha'⟩ := h.relative (hin _ (List.mem_cons_self ..))
    refine Both.refl ?_
    show SameCell _ _ (.ram (value + m.proc.firstSector).toNat) (.ram (value + m'.proc.firstSector).toNat)
    rw [ha, ha']
    exact .ram _ hk
  | indirectMem =>
    obtain ⟨hk, ha, ha'⟩ := h.relative (hin _ (List.mem_cons_self ..))
    refine Both.refl ?_
    show SameCell _ _ (.ram (value + m.proc.firstSector).toNat) (.ram (value + m'.proc.firstSector).toNat)
    rw [ha, ha']
    exact .ram _ hk
  | indirectLbl =>
    obtain ⟨hk, ha, ha'⟩ := h.relative (hin (value + m.proc.firstSector).toNat (by simp [operandCells]))
    have hnext := hin ((value + m.proc.firstSector).toNat + 1) (by simp [operandCells])
    have htarget := hin _ (by simp only [operandCells, List.mem_cons]; exact .inr (.inr (.inl rfl)))
    unfold Process.Segment Process.top at hnext htarget
    refine agree_get ?_
    dsimp only
    rw [ha] at hnext htarget ⊢
    rw [ha']
    refine agree_bind (agree_load h _ _ hk) fun high high' t t' hhigh => ?_
    obtain ⟨rfl, rfl⟩ := hhigh
    refine agree_bind (agree_load (h.record t t') _ _ (k := value.toNat + 1) ?_) fun low low' u u' hlow => ?_
    · show value.toNat + 1 < m.proc.allocatedMemory
      omega
    obtain ⟨rfl, rfl⟩ := hlow
    refine agree_get (Both.refl (.ram _ ?_))
    rw [Nat.add_assoc] at htarget
    exact Nat.lt_of_add_lt_add_left htarget.2
  | indirectReg =>
    refine agree_bind (agree_registerIndex _) fun r r' t t' hr => ?_
    obtain ⟨hreg, rfl⟩ := hr
    have hreg : registerOf value = some r' := hreg
    have htarget := hin _ (by simp only [operandCells, hreg]; exact List.mem_cons_self ..)
    refine agree_get (agree_get ⟨?_, t, t', rfl, rfl⟩)
    show SameCell _ _ (.ram (m.proc.firstSector.toNat + (m.registers r').toNat))
      (.ram (m'.proc.firstSector.toNat + (m'.registers r').toNat))
    rw [h.registers]
    exact .ram _ (Nat.lt_of_add_lt_add_left htarget.2)
  | number => exact ⟨rfl, trivial⟩
  | number16 => exact ⟨rfl, trivial⟩
  | other b => exact ⟨rfl, trivial⟩

theorem agree_read (h : Relocated m m') {c c' : Cell} (hc : SameCell m.proc m'.proc c c') :
    Agree c.read c'.read (Both m m' fun v v' => v' = v) m m' := by
  cases hc with
  | register r =>
    refine agree_get (Both.refl ?_)
    rw [h.registers]
  | ram k hk => exact (agree_load h _ _ hk).mono fun v v' s s' hv => ⟨hv.1.2, hv.2⟩

theorem agree_cellValue (h : Relocated m m') {arg : RawArgument} (hin : OperandIn m arg) :
    Agree (cellValue arg) (cellValue arg) (Both m m' fun v v' => v' = v) m m' := by
  refine agree_bind (agree_resolve h hin) fun c c' t t' hc => ?_
  exact (agree_read (h.record t t') hc).mono fun v v' s s' hv => hv

theorem agree_operandValue (h : Relocated m m') {arg : RawArgument} (hin : OperandIn m arg) :
    Agree (operandValue arg) (operandValue arg) (Both m m' fun v v' => v' = v) m m' :=
  .ite Iff.rfl (fun _ => Both.refl rfl) fun _ => agree_cellValue h hin

theorem agree_wordValue (h : Relocated m m') {p : Prop} [Decidable p] {arg : RawArgument}
    (hin : p ∨ OperandIn m arg) :
    Agree (wordValue p arg) (wordValue p arg) (Both m m' fun v v' => v' = v) m m' :=
  .ite Iff.rfl (fun _ => Both.refl rfl) fun hp =>
    agree_bind (agree_cellValue h (hin.resolve_left hp)) fun v v' t t' hv => ⟨by rw [hv], t, t', rfl, rfl⟩

/-! ### Writing -/

/-- Both programs keep the relation. -/
abbrev Follows (x y : Exec Unit) (m m' : Machine) : Prop := Agree x y (fun _ _ => Relocated) m m'

theorem relocated_store (h : Relocated m m') {k : Nat} (hk : k < m.proc.allocatedMemory) (v : MemCell) :
    Relocated (put m v (.ram (m.proc.firstSector.toNat + k)))
      (put m' v (.ram (m'.proc.firstSector.toNat + k))) := by
  obtain ⟨_, hfits, hfits'⟩ := h.bounds
  refine {h with segment := fun j hj => ?_, headless := ⟨?_, ?_⟩}
  · show Function.update m'.ram _ _ (m'.proc.firstSector.toNat + j) =
      Function.update m.ram _ _ (m.proc.firstSector.toNat + j)
    by_cases hjk : j = k
    · rw [hjk, Function.update_self, Function.update_self]
    · rw [Function.update_of_ne (by omega), Function.update_of_ne (by omega)]
      exact h.segment j hj
  · show (Function.update m.ram _ _ guiFlag == 1) = false
    rw [Function.update_of_ne (by omega)]
    exact h.headless.1
  · show (Function.update m'.ram _ _ guiFlag == 1) = false
    rw [Function.update_of_ne (by omega)]
    exact h.headless.2

theorem follows_store (h : Relocated m m') {k : Nat} (hk : k < m.proc.allocatedMemory) (v : MemCell) :
    Follows (store .store (m.proc.firstSector.toNat + k) v) (store .store (m'.proc.firstSector.toNat + k) v)
      m m' := by
  have hflag : guiFlag = 59903 := rfl
  have hram : ramSize = 64000 := rfl
  obtain ⟨_, hfits, hfits'⟩ := h.bounds
  obtain ⟨t, ht⟩ := store_run (m := m) (v := v) .store
    (show m.proc.firstSector.toNat + k < ramSize by omega)
  obtain ⟨u, hu⟩ := store_run (m := m') (v := v) .store
    (show m'.proc.firstSector.toNat + k < ramSize by omega)
  unfold Follows Agree Alike
  rw [ht, hu]
  exact (relocated_store h hk v).record t u

theorem follows_write (h : Relocated m m') {c c' : Cell} (hc : SameCell m.proc m'.proc c c') (v : MemCell) :
    Follows (c.write v) (c'.write v) m m' := by
  cases hc with
  | register r =>
    have hregisters : Function.update m'.registers r v = Function.update m.registers r v := by
      rw [h.registers]
    exact .update {h with registers := hregisters}
  | ram k hk => exact follows_store h hk v

theorem follows_assign (h : Relocated m m') {arg : RawArgument} (hin : OperandIn m arg) (v : MemCell) :
    Follows (resolveWriteableArg arg.type arg.value >>= fun c => c.write v)
      (resolveWriteableArg arg.type arg.value >>= fun c => c.write v) m m' :=
  agree_bind (agree_resolve h hin) fun _ _ t t' hc => follows_write (h.record t t') hc v

theorem follows_updateCell (h : Relocated m m') {op : MemCell → MemCell → MemCell} {a : RawArgument}
    (hin : OperandIn m a) (bVal : MemCell) : Follows (updateCell op a bVal) (updateCell op a bVal) m m' := by
  refine agree_bind (agree_resolve h hin) fun c c' t t' hc => ?_
  refine agree_bind (agree_read (h.record t t') hc) fun v v' u u' hv => ?_
  subst hv
  exact follows_write (h.record u u') hc _

/-! ### Data, arithmetic and jumps -/

theorem follows_printed (h : Relocated m m') (bytes : List MemCell) :
    Follows (printed bytes) (printed bytes) m m' := by
  have hcout : m'.cout ++ bytes = m.cout ++ bytes := by rw [h.cout]
  exact .update {h with cout := hcout}

theorem agree_bind_value {x y : Exec MemCell} {f g : MemCell → Exec Unit}
    (hx : Agree x y (Both m m' fun v v' => v' = v) m m')
    (hf : ∀ v t t', Follows (f v) (g v) (recorded m t) (recorded m' t')) :
    Follows (x >>= f) (y >>= g) m m' :=
  agree_bind hx fun v v' t t' hv => by subst hv; exact hf _ t t'

theorem agree_raiseIf {c d : Prop} [Decidable c] [Decidable d] {e : Error} {f : Unit → Exec α}
    {g : Unit → Exec β} (hcd : c ↔ d) (hf : ¬ c → Agree (f ()) (g ()) Q m m') :
    Agree (raiseIf c e >>= f) (raiseIf d e >>= g) Q m m' := by
  by_cases hc : c
  · unfold Agree Alike
    rw [bind_error (raiseIf_raises hc), bind_error (raiseIf_raises (hcd.mp hc))]
    exact ⟨rfl, trivial⟩
  · have hgo := hf hc
    unfold Agree Alike at hgo ⊢
    rw [bind_ok (raiseIf_run hc), bind_ok (raiseIf_run (hcd.not.mp hc))]
    exact hgo

theorem follows_mov (h : Relocated m m') {dest src : RawArgument} (hsrc : OperandIn m src)
    (hdest : OperandIn m dest) : Follows (mov dest src) (mov dest src) m m' :=
  agree_bind_value (agree_operandValue h hsrc) fun v t t' => follows_assign (h.record t t') hdest v

theorem follows_print (h : Relocated m m') {el : RawArgument} (hin : OperandIn m el) :
    Follows (print el) (print el) m m' :=
  agree_bind_value (agree_operandValue h hin) fun _ t t' => follows_printed (h.record t t') _

/-- `ADD`, `SUB` and `MUL`. -/
theorem follows_update (h : Relocated m m') {op : MemCell → MemCell → MemCell} {a b : RawArgument}
    (hb : OperandIn m b) (ha : OperandIn m a) :
    Follows (operandValue b >>= updateCell op a) (operandValue b >>= updateCell op a) m m' :=
  agree_bind_value (agree_operandValue h hb) fun v t t' => follows_updateCell (h.record t t') ha v

theorem follows_div (h : Relocated m m') {a b : RawArgument} (hb : OperandIn m b) (ha : OperandIn m a) :
    Follows (div a b) (div a b) m m' :=
  agree_bind_value (agree_operandValue h hb) fun v t t' =>
    agree_raiseIf Iff.rfl fun _ => follows_updateCell (h.record t t') ha v

/-- `get_gui` without a window. -/
theorem getGui_headless {m : Machine} (h : m.getGui = false) : ∃ t, getGui m = .ok false (recorded m t) := by
  obtain ⟨t, ht⟩ := load_run (m := m) (i := guiFlag) .flag (by decide)
  have hflag : (m.ram guiFlag == 1) = false := h
  exact ⟨t, by rw [getGui, bind_ok ht, hflag]; rfl⟩

/-- Without a window `INPUT` reads the input stream. -/
theorem inputValue_headless {m : Machine} (h : m.getGui = false) :
    ∃ t, inputValue m = .ok (UInt8.ofInt m.cin.extract.1) {recorded m t with cin := m.cin.extract.2} := by
  obtain ⟨t, ht⟩ := getGui_headless h
  exact ⟨t, by rw [inputValue, bind_ok ht]; rfl⟩

theorem follows_input (h : Relocated m m') {arg : RawArgument} (hin : OperandIn m arg) :
    Follows (input arg) (input arg) m m' := by
  obtain ⟨t, ht⟩ := inputValue_headless h.headless.1
  obtain ⟨u, hu⟩ := inputValue_headless h.headless.2
  have hcin : m'.cin.extract.2 = m.cin.extract.2 := by rw [h.cin]
  have hread : Relocated {recorded m t with cin := m.cin.extract.2}
      {recorded m' u with cin := m'.cin.extract.2} := {h.record t u with cin := hcin}
  have hassign := follows_assign hread hin (UInt8.ofInt m.cin.extract.1)
  unfold Follows Agree Alike at hassign ⊢
  rw [input, bind_ok ht, bind_ok hu, h.cin]
  rw [h.cin] at hassign
  exact hassign

theorem follows_cmp (h : Relocated m m') {arg1 arg2 : RawArgument} (h₁ : OperandIn m arg1)
    (h₂ : OperandIn m arg2) : Follows (cmp arg1 arg2) (cmp arg1 arg2) m m' := by
  refine agree_bind_value (agree_operandValue h h₁) fun v t t' => ?_
  refine agree_bind_value (agree_operandValue (h.record t t') h₂) fun w u u' => ?_
  exact .update {h with zero := rfl, sign := rfl}

theorem follows_jumpTo (h : Relocated m m') (offset : MemAddr) : Follows (jumpTo offset) (jumpTo offset) m m' := by
  have hpc : m'.proc.firstSector + offset - m'.proc.firstSector =
      m.proc.firstSector + offset - m.proc.firstSector := by
    rw [UInt16.add_comm, UInt16.add_sub_cancel, UInt16.add_comm, UInt16.add_sub_cancel]
  exact .update (h.proc ⟨rfl, rfl, rfl, rfl, rfl, rfl, rfl, rfl⟩ ⟨rfl, rfl, rfl, rfl, rfl, rfl, rfl, rfl⟩
    h.running hpc h.sp)

theorem follows_jmp (h : Relocated m m') {target : RawArgument}
    (hin : target.type = .address ∨ OperandIn m target) : Follows (jmp target) (jmp target) m m' :=
  agree_bind (agree_wordValue h hin) fun v v' t t' hv => by
    subst hv
    exact follows_jumpTo (h.record t t') _

theorem follows_jumpIf (h : Relocated m m') {condition : Bool → Bool → Bool} {arg : RawArgument}
    (hin : JumpIn m condition arg) : Follows (jumpIf condition arg) (jumpIf condition arg) m m' := by
  refine agree_get (.ite (by rw [h.zero, h.sign]) (fun hc => ?_) fun _ => h)
  refine agree_bind (agree_wordValue h (hin hc)) fun v v' t t' hv => ?_
  subst hv
  exact follows_jumpTo (h.record t t') _

/-! ### The stack -/

/-- SP is lowered on both sides. -/
theorem Relocated.lowered (h : Relocated m m') (n : Nat) :
    Relocated {m with proc := {m.proc with sp := m.proc.sp - UInt16.ofNat n}}
      {m' with proc := {m'.proc with sp := m'.proc.sp - UInt16.ofNat n}} := by
  refine h.proc ⟨rfl, rfl, rfl, rfl, rfl, rfl, rfl, rfl⟩ ⟨rfl, rfl, rfl, rfl, rfl, rfl, rfl, rfl⟩
    h.running h.pc ?_
  have hsp := h.sp
  dsimp only
  grind

theorem Relocated.raised (h : Relocated m m') (n : Nat) : Relocated (popOff m n) (popOff m' n) := by
  refine h.proc ⟨rfl, rfl, rfl, rfl, rfl, rfl, rfl, rfl⟩ ⟨rfl, rfl, rfl, rfl, rfl, rfl, rfl, rfl⟩
    h.running h.pc ?_
  have hsp := h.sp
  dsimp only
  grind

theorem follows_lowerSP {n : Nat} {f g : Unit → Exec Unit}
    (hf : Follows (f ()) (g ()) {m with proc := {m.proc with sp := m.proc.sp - UInt16.ofNat n}}
      {m' with proc := {m'.proc with sp := m'.proc.sp - UInt16.ofNat n}}) :
    Follows (lowerSP n >>= f) (lowerSP n >>= g) m m' := hf

theorem follows_raiseSP (h : Relocated m m') (n : Nat) : Follows (raiseSP n) (raiseSP n) m m' :=
  .update (h.raised n)

/-- Both write the same byte at the same place of the segment. -/
theorem follows_storeAt (h : Relocated m m') {i i' k : Nat} (hi : i = m.proc.firstSector.toNat + k)
    (hi' : i' = m'.proc.firstSector.toNat + k) (hk : k < m.proc.allocatedMemory) (v : MemCell) :
    Follows (store .store i v) (store .store i' v) m m' := by
  subst hi hi'
  exact follows_store h hk v

theorem follows_bind_store (h : Relocated m m') {i i' k : Nat} (hi : i = m.proc.firstSector.toNat + k)
    (hi' : i' = m'.proc.firstSector.toNat + k) (hk : k < m.proc.allocatedMemory) (v : MemCell)
    {f g : Unit → Exec Unit} (hf : ∀ s s' : Machine, s.proc = m.proc → s'.proc = m'.proc → Relocated s s' →
      Follows (f ()) (g ()) s s') :
    Follows (store .store i v >>= f) (store .store i' v >>= g) m m' := by
  subst hi hi'
  have hflag : guiFlag = 59903 := rfl
  have hram : ramSize = 64000 := rfl
  obtain ⟨_, hfits, hfits'⟩ := h.bounds
  obtain ⟨t, ht⟩ := store_run (m := m) (v := v) .store
    (show m.proc.firstSector.toNat + k < ramSize by omega)
  obtain ⟨u, hu⟩ := store_run (m := m') (v := v) .store
    (show m'.proc.firstSector.toNat + k < ramSize by omega)
  have hnext := hf (recorded (put m v (.ram (m.proc.firstSector.toNat + k))) t)
    (recorded (put m' v (.ram (m'.proc.firstSector.toNat + k))) u) rfl rfl
    ((relocated_store h hk v).record t u)
  unfold Follows Agree Alike at hnext ⊢
  rw [bind_ok ht, bind_ok hu]
  exact hnext

/-- A word is stored at the same place of the segment. -/
theorem follows_storeWord (h : Relocated m m') {i i' k : Nat} (hi : i = m.proc.firstSector.toNat + k)
    (hi' : i' = m'.proc.firstSector.toNat + k) (hk : k + 1 < m.proc.allocatedMemory) (high low : MemCell) :
    Follows (do store .store i high; store .store (i + 1) low)
      (do store .store i' high; store .store (i' + 1) low) m m' := by
  refine follows_bind_store h hi hi' (by omega) high fun s s' hs hs' hnext => ?_
  exact follows_storeAt hnext (k := k + 1) (by rw [hs]; omega) (by rw [hs']; omega) (by rw [hs]; exact hk) low

/-- SP, and SP lowered by up to a word, as offsets. -/
theorem Relocated.stack (h : Relocated m m') (hs : StackIn m.proc) {n : Nat} (hn : n ≤ 2) :
    ∃ k, k + n ≤ m.proc.allocatedMemory ∧
      (m.proc.sp - UInt16.ofNat n).toNat = m.proc.firstSector.toNat + k ∧
      (m'.proc.sp - UInt16.ofNat n).toNat = m'.proc.firstSector.toNat + k ∧
      (m.proc.sp - UInt16.ofNat n < m.proc.stackLimit ↔ m'.proc.sp - UInt16.ofNat n < m'.proc.stackLimit) := by
  obtain ⟨hlow, hhigh⟩ := hs
  obtain ⟨size, hl, hl'⟩ := h.loaded
  obtain ⟨k, hk, hsp, hsp'⟩ := h.offset h.sp (by omega) hhigh
  have hstack := hl.stackLimit
  have hstack' := hl'.stackLimit
  have hflag : guiFlag = 59903 := rfl
  obtain ⟨_, hfits, hfits'⟩ := h.bounds
  have hlower : (m.proc.sp - UInt16.ofNat n).toNat = m.proc.firstSector.toNat + (k - n) := by
    rw [UInt16.toNat_sub, UInt16.toNat_ofNat']
    omega
  have hlower' : (m'.proc.sp - UInt16.ofNat n).toNat = m'.proc.firstSector.toNat + (k - n) := by
    rw [UInt16.toNat_sub, UInt16.toNat_ofNat']
    omega
  refine ⟨k - n, by omega, hlower, hlower', ?_⟩
  rw [UInt16.lt_iff_toNat_lt, UInt16.lt_iff_toNat_lt]
  omega

theorem follows_spush (h : Relocated m m') {arg : RawArgument} (hin : arg.type = .number ∨ OperandIn m arg)
    (hs : StackIn m.proc) : Follows (spush arg) (spush arg) m m' := by
  refine agree_bind (agree_wordValue h hin) fun v v' t t' hv => ?_
  subst hv
  obtain ⟨hpos, htwo⟩ := stackWidth_le arg.type
  obtain ⟨k, hk, hsp, hsp', hcheck⟩ := h.stack hs htwo
  have hlow := (h.record t t').lowered (stackWidth arg.type)
  refine follows_lowerSP (agree_get (agree_raiseIf hcheck fun _ => .ite Iff.rfl (fun _ => ?_) fun hne => ?_))
  · exact follows_storeAt hlow hsp hsp' (show k < m.proc.allocatedMemory by omega) _
  · exact follows_storeWord hlow hsp hsp' (show k + 1 < m.proc.allocatedMemory by omega) _ _

/-- SP as an offset, where a pop has passed its check. -/
theorem Relocated.popped (h : Relocated m m') (hs : StackIn m.proc) (n : Nat) :
    (m.proc.firstSector.toNat + m.proc.allocatedMemory < m.proc.sp.toNat + n ↔
      m'.proc.firstSector.toNat + m'.proc.allocatedMemory < m'.proc.sp.toNat + n) ∧
    ∃ k, m.proc.sp.toNat = m.proc.firstSector.toNat + k ∧ m'.proc.sp.toNat = m'.proc.firstSector.toNat + k ∧
      (¬ m.proc.firstSector.toNat + m.proc.allocatedMemory < m.proc.sp.toNat + n →
        k + n ≤ m.proc.allocatedMemory) := by
  obtain ⟨k, hk, hsp, hsp'⟩ := h.offset h.sp (by have := hs.1; omega) hs.2
  obtain ⟨hsame, _, _⟩ := h.bounds
  exact ⟨by omega, k, hsp, hsp', by omega⟩

theorem follows_deliver (h : Relocated m m') {arg : RawArgument} (hin : OperandIn m arg) (v : MemCell) (n : Nat) :
    Follows (resolveWriteableArg arg.type arg.value >>= fun c => c.write v >>= fun _ => raiseSP n)
      (resolveWriteableArg arg.type arg.value >>= fun c => c.write v >>= fun _ => raiseSP n) m m' :=
  agree_bind (agree_resolve h hin) fun _ _ t t' hc =>
    .bind ((follows_write (h.record t t') hc v).mono fun _ _ _ _ hs => follows_raiseSP hs n)

theorem follows_spop (h : Relocated m m') {arg : RawArgument} (hin : OperandIn m arg)
    (hs : StackIn m.proc) : Follows (spop arg) (spop arg) m m' := by
  obtain ⟨hpos, htwo⟩ := stackWidth_le arg.type
  obtain ⟨hcheck, k, hsp, hsp', hbelow⟩ := h.popped hs (stackWidth arg.type)
  refine agree_get (agree_raiseIf hcheck fun hroom => ?_)
  have hk := hbelow hroom
  rw [hsp, hsp']
  refine .ite Iff.rfl (fun _ => ?_) fun hne => ?_
  · refine agree_bind (agree_load h _ _ (by omega)) fun v v' t t' hv => ?_
    obtain ⟨rfl, rfl⟩ := hv
    exact follows_deliver (h.record t t') hin _ _
  · have hwidth := stackWidth_ne hne
    refine agree_bind (agree_load h _ _ (by omega)) fun high high' t t' hhigh => ?_
    obtain ⟨rfl, rfl⟩ := hhigh
    refine agree_bind (agree_load (h.record t t') _ _ (k := k + 1) ?_) fun low low' u u' hlow => ?_
    · show k + 1 < m.proc.allocatedMemory
      omega
    obtain ⟨rfl, rfl⟩ := hlow
    exact follows_deliver (h.record u u') hin _ _

/-- `CALL` is alike where it fails. -/
theorem follows_call (h : Relocated m m') {arg : RawArgument} (hs : StackIn m.proc)
    (hfails : arg.type = .address → m.proc.sp - 2 < m.proc.stackLimit) :
    Follows (call arg) (call arg) m m' := by
  refine agree_raiseIf Iff.rfl fun haddress => agree_get ?_
  obtain ⟨k, _, _, _, hcheck⟩ := h.stack hs (n := 2) (Nat.le_refl _)
  exact follows_lowerSP (agree_get (agree_raiseIf hcheck fun hroom =>
    absurd (hfails (not_not.mp haddress)) hroom))

/-- `RET` is alike where it fails. -/
theorem follows_ret (h : Relocated m m') (hs : StackIn m.proc) (hfails : m.proc.top < m.proc.sp.toNat + 2) :
    Follows ret ret m m' :=
  agree_get (agree_raiseIf (h.popped hs 2).1 fun hroom => absurd hfails hroom)

/-! ### The heap -/

theorem Cursor.offset {a a' : MemAddr} (h : Relocated m m') {k : Nat}
    (ha : a.toNat = m.proc.firstSector.toNat + k) (ha' : a'.toNat = m'.proc.firstSector.toNat + k) :
    (m.proc.heapLimit ≤ a ↔ m'.proc.heapLimit ≤ a') ∧
      (a.toNat < m.proc.heapLimit.toNat → k + 3 ≤ m.proc.allocatedMemory) := by
  obtain ⟨size, hl, hl'⟩ := h.loaded
  have h₁ := hl.heapLimit
  have h₂ := hl'.heapLimit
  have h₃ := hl.allocated
  rw [UInt16.le_iff_toNat_le, UInt16.le_iff_toNat_le]
  omega

theorem agree_header (h : Relocated m m') {a a' : MemAddr} {k : Nat}
    (ha : a.toNat = m.proc.firstSector.toNat + k) (ha' : a'.toNat = m'.proc.firstSector.toNat + k)
    (hk : k + 3 ≤ m.proc.allocatedMemory) :
    Agree (header a) (header a')
      (Both m m' fun r r' => r = (headerSize m.ram a.toNat, m.ram (a.toNat + 2)) ∧ r' = r) m m' := by
  unfold header
  rw [ha, ha', Nat.add_assoc, Nat.add_assoc, Nat.add_assoc, Nat.add_assoc]
  refine agree_bind (agree_load h _ _ (by omega)) fun high high' t t' hhigh => ?_
  obtain ⟨rfl, rfl⟩ := hhigh
  refine agree_bind (agree_load (h.record t t') _ _ (k := k + 1) ?_) fun low low' u u' hlow => ?_
  · show k + 1 < m.proc.allocatedMemory
    omega
  obtain ⟨rfl, rfl⟩ := hlow
  refine agree_bind (agree_load (h.record u u') _ _ (k := k + 2) ?_) fun status status' w w' hstatus => ?_
  · show k + 2 < m.proc.allocatedMemory
    omega
  obtain ⟨rfl, rfl⟩ := hstatus
  exact ⟨⟨rfl, rfl⟩, w, w', rfl, rfl⟩

/-- What a search came to: a block of the heap, by its place and its size. -/
structure Found (p p' : Process) (r r' : MemAddr × Nat) (k : Nat) : Prop where
  place : r.1.toNat = p.firstSector.toNat + k
  place' : r'.1.toNat = p'.firstSector.toNat + k
  dimension : r'.2 = r.2
  start : p.heapStart.toNat ≤ r.1.toNat
  fits : r.1.toNat + heapHeaderBlockSize + r.2 ≤ p.top

/-- The two searches find the same block. -/
theorem agree_hallocScan (n fuel : Nat) (h : Relocated m m') {a a' : MemAddr} {k : Nat}
    (hcursor : Cursor m a) (ha : a.toNat = m.proc.firstSector.toNat + k)
    (ha' : a'.toNat = m'.proc.firstSector.toNat + k) :
    Agree (hallocScan n fuel a) (hallocScan n fuel a')
      (Both m m' fun r r' => ∃ k, Found m.proc m'.proc r r' k) m m' := by
  induction fuel generalizing a a' k m m' with
  | zero => exact ⟨rfl, trivial⟩
  | succ fuel ih =>
    have hflag : guiFlag = 59903 := rfl
    obtain ⟨_, hfits, hfits'⟩ := h.bounds
    obtain ⟨hlimit, hk⟩ := Cursor.offset h ha ha'
    refine agree_get (agree_raiseIf hlimit fun hbelow => ?_)
    have hlt : a.toNat < m.proc.heapLimit.toNat := by
      rw [UInt16.le_iff_toNat_le] at hbelow
      omega
    refine agree_bind (agree_header h ha ha' (hk hlt)) fun r r' t t' hr => ?_
    obtain ⟨rfl, rfl⟩ := hr
    obtain ⟨hfit, hnext⟩ := hcursor.next hlt
    have hroom := hfit
    unfold Process.top at hroom
    have hplace := nextChunk_toNat (a := a) (n := headerSize m.ram a.toNat) (by omega)
    have hplace' := nextChunk_toNat (a := a') (n := headerSize m.ram a.toNat) (by omega)
    have hgo := ih (h.record t t') (k := k + heapHeaderBlockSize + headerSize m.ram a.toNat)
      (hnext.record t) (by rw [hplace, ha]; simp only [recorded_proc]; omega)
      (by rw [hplace', ha']; simp only [recorded_proc]; omega)
    exact .ite Iff.rfl (fun _ => hgo) fun _ => .ite Iff.rfl
      (fun _ => ⟨⟨k, ha, ha', rfl, hcursor.start, hfit⟩, t, t', rfl, rfl⟩) fun _ => hgo

theorem follows_writeHeader (h : Relocated m m') {i i' k : Nat} (hi : i = m.proc.firstSector.toNat + k)
    (hi' : i' = m'.proc.firstSector.toNat + k) (hk : k + 2 < m.proc.allocatedMemory) (size : Nat)
    (status : HeapReg) : Follows (writeHeader i size status) (writeHeader i' size status) m m' := by
  refine follows_bind_store h hi hi' (by omega) _ fun s s' hs hs' hnext => ?_
  refine follows_bind_store hnext (k := k + 1) (by rw [hs]; omega) (by rw [hs']; omega)
    (by rw [hs]; omega) _ fun w w' hw hw' hlast => ?_
  exact follows_storeAt hlast (k := k + 2) (by rw [hw, hs]; omega) (by rw [hw', hs']; omega)
    (by rw [hw, hs]; exact hk) _

theorem follows_carve (h : Relocated m m') {chunk chunk' k size dimension : Nat}
    (hchunk : chunk = m.proc.firstSector.toNat + k) (hchunk' : chunk' = m'.proc.firstSector.toNat + k)
    (hfit : k + heapHeaderBlockSize + dimension ≤ m.proc.allocatedMemory) :
    Follows (Exec.carve size chunk dimension) (Exec.carve size chunk' dimension) m m' := by
  have hblock : heapHeaderBlockSize = 3 := rfl
  refine .ite Iff.rfl (fun hsplit => ?_) fun _ => follows_writeHeader h hchunk hchunk' (by omega) _ _
  have hrest : Follows
      (writeHeader (chunk + heapHeaderBlockSize + size) (dimension - heapHeaderBlockSize - size) .free)
      (writeHeader (chunk' + heapHeaderBlockSize + size) (dimension - heapHeaderBlockSize - size) .free) m m' :=
    follows_writeHeader h (k := k + heapHeaderBlockSize + size) (by omega) (by omega) (by omega) _ _
  refine .bind ((hrest.and ((above_writeHeader (c := 0) _ _ (Nat.zero_le _)).at m)
    ((above_writeHeader (c := 0) _ _ (Nat.zero_le _)).at m')).mono fun _ _ s s' hs => ?_)
  obtain ⟨hs, habove, habove'⟩ := hs
  exact follows_writeHeader hs (k := k) (by rw [habove.proc]; exact hchunk)
    (by rw [habove'.proc]; exact hchunk') (by rw [habove.proc]; omega) _ _

/-- `HALLOC` is alike where the two segments start at the same place modulo 256. -/
theorem follows_halloc (h : Relocated m m') {place size : RawArgument}
    (hsize : size.type = .number ∨ OperandIn m size) (hplace : PlaceIn m place)
    (hheap : HeapIn m.proc m.ram)
    (hbase : m.proc.firstSector.toNat % 256 = m'.proc.firstSector.toNat % 256) :
    Follows (halloc place size) (halloc place size) m m' := by
  obtain ⟨codeSize, hl, hl'⟩ := h.loaded
  refine agree_bind (agree_wordValue h hsize) fun n n' t t' hn => ?_
  subst hn
  have hcursor : Cursor (recorded m t) m.proc.heapStart := ⟨⟨codeSize, hl⟩, Nat.le_refl _, hheap⟩
  refine agree_get ?_
  refine agree_bind (agree_hallocScan n'.toNat loopFuel (h.record t t') (k := codeSize) hcursor hl.heapStart
    hl'.heapStart) fun r r' u u' hr => ?_
  obtain ⟨k, hk, hk', hdimension, hstart, hfits⟩ := hr
  have hfits : r.1.toNat + heapHeaderBlockSize + r.2 ≤ m.proc.firstSector.toNat + m.proc.allocatedMemory := hfits
  have hk : r.1.toNat = m.proc.firstSector.toNat + k := hk
  have hk' : r'.1.toNat = m'.proc.firstSector.toNat + k := hk'
  have hcarve : Follows (Exec.carve n'.toNat r.1.toNat r.2) (Exec.carve n'.toNat r'.1.toNat r.2)
      (recorded m u) (recorded m' u') :=
    follows_carve (h.record u u') hk hk' (show k + heapHeaderBlockSize + r.2 ≤ m.proc.allocatedMemory by omega)
  dsimp only
  rw [hdimension]
  refine .bind ((hcarve.and ((above_carve _ _ _).at _) ((above_carve _ _ _).at _)).mono
    fun _ _ s s' hs => ?_)
  obtain ⟨hs, habove, _⟩ := hs
  have hplace' : OperandIn s place := hplace.above hstart
    (trans_of (Above _) (a := m) (b := recorded m u) ⟨rfl, rfl, fun _ _ => rfl⟩ habove)
  have hbyte : (r'.1 + UInt16.ofNat heapHeaderBlockSize).toUInt8 =
      (r.1 + UInt16.ofNat heapHeaderBlockSize).toUInt8 := by
    apply UInt8.toNat_inj.mp
    rw [UInt16.toNat_toUInt8, UInt16.toNat_toUInt8, UInt16.toNat_add, UInt16.toNat_add]
    omega
  rw [hbyte]
  exact follows_assign hs hplace' _

/-! ### The framebuffer -/

/-- Without a window `FBSET` raises. -/
theorem follows_fbset (h : Relocated m m') (index color : RawArgument) :
    Follows (fbset index color) (fbset index color) m m' := by
  refine agree_raiseIf Iff.rfl fun _ => ?_
  obtain ⟨t, ht⟩ := getGui_headless h.headless.1
  obtain ⟨u, hu⟩ := getGui_headless h.headless.2
  unfold Agree Alike
  rw [bind_ok ht, bind_ok hu, bind_error (raiseIf_raises (by decide)), bind_error (raiseIf_raises (by decide))]
  exact ⟨rfl, trivial⟩

/-! ### One turn -/

/-- The instructions that come to the same at another address: `HALLOC` needs the two to
be congruent, `CALL` and `RET` must fail, and `HFREE` never does. -/
def Relocatable (m : Machine) (congruent : Prop) : Instruction → Prop
  | .call arg => arg.type = .address → m.proc.sp - 2 < m.proc.stackLimit
  | .ret => m.proc.top < m.proc.sp.toNat + 2
  | .halloc _ _ => congruent
  | .hfree _ => False
  | _ => True

theorem follows_perform (h : Relocated m m') {i : Instruction} (hin : InstructionIn m i)
    (hrel : Relocatable m (m.proc.firstSector.toNat % 256 = m'.proc.firstSector.toNat % 256) i) :
    Follows (perform i) (perform i) m m' := by
  cases i with
  | nop => exact h
  | mov dest src => exact follows_mov h hin.1 hin.2
  | print el => exact follows_print h hin
  | printflush => exact follows_printed h _
  | add a b => exact follows_update h hin.1 hin.2
  | sub a b => exact follows_update h hin.1 hin.2
  | mul a b => exact follows_update h hin.1 hin.2
  | div a b => exact follows_div h hin.1 hin.2
  | input arg => exact follows_input h hin
  | jmp target => exact follows_jmp h hin
  | cmp arg1 arg2 => exact follows_cmp h hin.1 hin.2
  | je arg => exact follows_jumpIf h (show JumpIn m (fun zero _ => zero) arg from hin)
  | jne arg => exact follows_jumpIf h (show JumpIn m (fun zero _ => !zero) arg from hin)
  | jg arg => exact follows_jumpIf h (show JumpIn m (fun _ sign => sign) arg from hin)
  | jng arg => exact follows_jumpIf h (show JumpIn m (fun _ sign => !sign) arg from hin)
  | spush arg => exact follows_spush h hin.1 hin.2
  | spop arg => exact follows_spop h hin.1 hin.2
  | halloc place size => exact follows_halloc h hin.1 hin.2.1 hin.2.2 hrel
  | hfree arg => exact hrel.elim
  | call arg => exact follows_call h hin hrel
  | ret => exact follows_ret h hin hrel
  | fbset index color => exact follows_fbset h index color
  | fbsync =>
    obtain ⟨s, hs⟩ := fbsync_headless h.window.1
    obtain ⟨s', hs'⟩ := fbsync_headless h.window.2
    unfold Follows Agree Alike
    rw [perform, hs, hs']
    exact ⟨rfl, trivial⟩
  | halt =>
    exact .update (h.proc ⟨rfl, rfl, rfl, rfl, rfl, rfl, rfl, rfl⟩ ⟨rfl, rfl, rfl, rfl, rfl, rfl, rfl, rfl⟩
      rfl h.pc h.sp)
  | unknown opcode =>
    refine agree_get ?_
    rw [h.row]
    exact ⟨rfl, trivial⟩

/-- The state a turn starts from: PC is in the segment, and the instruction there, if
the loop goes on to it, is confined and can be relocated. -/
structure Movable (congruent : Prop) (m : Machine) : Prop where
  pc : m.proc.firstSector.toNat ≤ m.proc.pc.toNat ∧ m.proc.pc.toNat ≤ m.proc.top
  instruction : m.goesOn = true →
    InstructionIn (fetched m) (current m) ∧ Relocatable (fetched m) congruent (current m)

/-- Both loops go on to the same instruction, or neither goes on. -/
theorem Relocated.fetch (h : Relocated m m')
    (hpc : m.proc.firstSector.toNat ≤ m.proc.pc.toNat ∧ m.proc.pc.toNat ≤ m.proc.top) :
    m'.goesOn = m.goesOn ∧ (m.goesOn = true → current m' = current m ∧ Relocated (fetched m) (fetched m')) := by
  obtain ⟨size, hl, hl'⟩ := h.loaded
  obtain ⟨k, hk, hp, hp'⟩ := h.offset h.pc hpc.1 hpc.2
  have hlast := hl.lastCodeSector
  have hlast' := hl'.lastCodeSector
  have halloc := hl.allocated
  have hlt : (m'.proc.pc < m'.proc.lastCodeSector) = (m.proc.pc < m.proc.lastCodeSector) := by
    rw [UInt16.lt_iff_toNat_lt, UInt16.lt_iff_toNat_lt, hp, hp', hlast, hlast', eq_iff_iff]
    omega
  refine ⟨by simp only [Machine.goesOn, h.running, hlt], fun hgo => ?_⟩
  have hpc' := (Machine.goesOn_pc hgo).2
  have hwindow : CustomIsaVm.window m'.ram m'.proc.pc.toNat 7 = CustomIsaVm.window m.ram m.proc.pc.toNat 7 := by
    refine List.ext_getElem (by simp) fun j hj _ => ?_
    rw [length_window] at hj
    simp only [CustomIsaVm.window, List.getElem_map, List.getElem_range', hp, hp', Nat.one_mul, Nat.add_assoc]
    exact h.segment (k + j) (by omega)
  have hcurrent : current m' = current m := by rw [current, current, hwindow]
  have hsize : currentSize m' = currentSize m := by rw [currentSize, currentSize, hwindow]
  refine ⟨hcurrent, ?_⟩
  have hproc : Relocated {m with proc := {m.proc with pc := m.proc.pc + UInt16.ofNat (currentSize m)}}
      {m' with proc := {m'.proc with pc := m'.proc.pc + UInt16.ofNat (currentSize m)}} :=
    h.proc ⟨rfl, rfl, rfl, rfl, rfl, rfl, rfl, rfl⟩ ⟨rfl, rfl, rfl, rfl, rfl, rfl, rfl, rfl⟩ h.running
      (by have hpc := h.pc; dsimp only; grind) h.sp
  have hmoved := hproc.record (fetched m).touched (fetched m').touched
  unfold fetched past
  rw [hsize]
  unfold fetched past at hmoved
  rw [hsize] at hmoved
  exact hmoved

/-- **A turn comes to the same at both addresses.** -/
theorem relocated_next (h : Relocated m m')
    (hmove : Movable (m.proc.firstSector.toNat % 256 = m'.proc.firstSector.toNat % 256) m) :
    (∃ s s', m.next = .ok s ∧ m'.next = .ok s' ∧ Relocated s s') ∨
      ∃ e, m.next = .error e ∧ m'.next = .error e := by
  obtain ⟨hgo', hfetch⟩ := h.fetch hmove.pc
  obtain ⟨size, hl, hl'⟩ := h.loaded
  by_cases hgo : m.goesOn = true
  · obtain ⟨hcurrent, hfetched⟩ := hfetch hgo
    obtain ⟨hin, hrel⟩ := hmove.instruction hgo
    have hturn := follows_perform hfetched hin hrel
    rw [hgo] at hgo'
    cases hrun : perform (current m) (fetched m) with
    | ok _ s =>
      obtain ⟨_, s', hrun', hs⟩ := hturn.ok hrun
      rw [← hcurrent] at hrun'
      have hrow : s'.row + 1 = s.row + 1 := by rw [hs.row]
      exact .inl ⟨_, _, Machine.next_ok_of_perform hl hgo hrun, Machine.next_ok_of_perform hl' hgo' hrun',
        {hs with row := hrow}⟩
    | error e s =>
      obtain ⟨s', hrun', _⟩ := hturn.error hrun
      rw [← hcurrent] at hrun'
      exact .inr ⟨_, Machine.next_error_of_perform hl hgo hrun, Machine.next_error_of_perform hl' hgo' hrun'⟩
  · refine .inr ⟨_, if_neg hgo, ?_⟩
    rw [Machine.next, if_neg (by rw [hgo']; exact hgo), h.running]

end

/-! ### Runs -/

/-- What two runs of one image have in common at some point: what they printed, PC and SP
relative to their segments, and how they go on. -/
structure InStep (m m' : Machine) : Prop where
  cout : m'.cout = m.cout
  pc : m'.proc.pc - m'.proc.firstSector = m.proc.pc - m.proc.firstSector
  sp : m'.proc.sp - m'.proc.firstSector = m.proc.sp - m.proc.firstSector
  goesOn : (∃ s, m.next = .ok s) ↔ ∃ s, m'.next = .ok s
  ends : ∀ e, m.next = .error e ↔ m'.next = .error e

theorem Relocated.inStep (h : Relocated m m')
    (hmove : Movable (m.proc.firstSector.toNat % 256 = m'.proc.firstSector.toNat % 256) m) :
    InStep m m' := by
  obtain ⟨s, s', hs, hs', _⟩ | ⟨e, he, he'⟩ := relocated_next h hmove
  · exact ⟨h.cout, h.pc, h.sp, by simp [hs, hs'], by simp [hs, hs']⟩
  · exact ⟨h.cout, h.pc, h.sp, by simp [he, he'], by simp [he, he']⟩

/-- Two processes of the same image are alike when they start. -/
theorem relocated_boot {vm vm' : VM} {p p' : Process} {image : List MemCell}
    (hl : Loaded image.length p) (hl' : Loaded image.length p') (hp : p.running = p'.running)
    (hpc : p'.pc - p'.firstSector = p.pc - p.firstSector)
    (hsp : p'.sp - p'.firstSector = p.sp - p.firstSector)
    (hregisters : vm'.registers = vm.registers) (hflags : vm'.zero = vm.zero ∧ vm'.sign = vm.sign)
    (hsegment : ∀ k < p.allocatedMemory,
      vm'.ram (p'.firstSector.toNat + k) = vm.ram (p.firstSector.toNat + k))
    (hgui : vm.getGui = false ∧ vm'.getGui = false) (cin : Stdin) :
    Relocated (.headless vm p cin) (.headless vm' p' cin) where
  loaded := ⟨_, hl, hl'⟩
  running := hp.symm
  pc := hpc
  sp := hsp
  registers := hregisters
  zero := hflags.1
  sign := hflags.2
  cin := rfl
  cout := rfl
  row := rfl
  segment := hsegment
  headless := hgui
  window := ⟨by simp [Machine.headless, Machine.boot, hgui.1], by simp [Machine.headless, Machine.boot, hgui.2]⟩

/-- The entry point and the empty stack are at the same place of the segment. -/
theorem load_relative {vm vm' vm₁ vm₁' : VM} {p p' : Process} {image : List MemCell}
    (himage : 2 ≤ image.length) (hload : vm.load image = .ok (p, vm₁))
    (hload' : vm'.load image = .ok (p', vm₁')) :
    p.running = p'.running ∧ p'.pc - p'.firstSector = p.pc - p.firstSector ∧
      p'.sp - p'.firstSector = p.sp - p.firstSector := by
  obtain ⟨high, low, rest, rfl⟩ : ∃ high low rest, image = high :: low :: rest := by
    match image, himage with
    | high :: low :: rest, _ => exact ⟨high, low, rest, rfl⟩
  obtain ⟨hrunning, hpc, hsp⟩ := load_entry hload
  obtain ⟨hrunning', hpc', hsp'⟩ := load_entry hload'
  refine ⟨hrunning.trans hrunning'.symm, ?_, ?_⟩
  · rw [hpc, hpc']
    grind
  · rw [hsp, hsp']
    grind

/-- Two loads of an image leave equal segments where there were equal ones before. -/
theorem load_segment {vm vm' vm₁ vm₁' : VM} {p p' : Process} {image : List MemCell}
    (hload : vm.load image = .ok (p, vm₁)) (hload' : vm'.load image = .ok (p', vm₁'))
    {k : Nat} (hbefore : vm'.ram (p'.firstSector.toNat + k) = vm.ram (p.firstSector.toNat + k)) :
    vm₁'.ram (p'.firstSector.toNat + k) = vm₁.ram (p.firstSector.toNat + k) := by
  have hblock : heapHeaderBlockSize = 3 := rfl
  obtain ⟨himage, hheap, hkept⟩ := load_ram hload
  obtain ⟨himage', hheap', hkept'⟩ := load_ram hload'
  by_cases hk : k < image.length
  · rw [holds_iff.mp himage k hk, holds_iff.mp himage' k hk]
  · by_cases hk' : k < image.length + heapHeaderBlockSize
    · have hlt : k - image.length < heapHeader.length := by
        show k - image.length < 3
        omega
      have h₁ := holds_iff.mp hheap _ hlt
      have h₂ := holds_iff.mp hheap' _ hlt
      rw [show p.firstSector.toNat + image.length + (k - image.length) = p.firstSector.toNat + k by omega] at h₁
      rw [show p'.firstSector.toNat + image.length + (k - image.length) = p'.firstSector.toNat + k by omega] at h₂
      rw [h₁, h₂]
    · rw [hkept _ (by omega), hkept' _ (by omega), hbefore]

/-- **A program does not depend on where it is loaded, as long as its turns are
movable.** From equal registers, flags and segments the two runs stay in step with each
other, turn for turn. -/
theorem relocation {vm vm' vm₁ vm₁' : VM} {procs procs' : List Process} {p p' : Process}
    {image : List MemCell} (hs : Session vm procs) (hs' : Session vm' procs') (himage : 2 ≤ image.length)
    (hload : vm.load image = .ok (p, vm₁)) (hload' : vm'.load image = .ok (p', vm₁'))
    (hregisters : vm₁'.registers = vm₁.registers) (hflags : vm₁'.zero = vm₁.zero ∧ vm₁'.sign = vm₁.sign)
    (hsegment : ∀ k < p.allocatedMemory,
      vm₁'.ram (p'.firstSector.toNat + k) = vm₁.ram (p.firstSector.toNat + k))
    (hgui : vm₁.getGui = false ∧ vm₁'.getGui = false) (cin : Stdin) {n : Nat} {m : Machine}
    (hmove : Machine.system.Within (Movable (p.firstSector.toNat % 256 = p'.firstSector.toNat % 256))
      (n + 1) (.headless vm₁ p cin))
    (hrun : Machine.system.after n (.headless vm₁ p cin) = some m) :
    ∃ m', Machine.system.after n (.headless vm₁' p' cin) = some m' ∧ InStep m m' := by
  obtain ⟨hrunning, hpc, hsp⟩ := load_relative himage hload hload'
  have hstart := relocated_boot (hs.load_loaded hload).1 (hs'.load_loaded hload').1 hrunning hpc hsp
    hregisters hflags hsegment hgui cin
  obtain ⟨m', hrun', hrel, hsector, hsector'⟩ := System.lockstep (S := Machine.system) (T := Machine.system)
    (R := fun m m' => Relocated m m' ∧ m.proc.firstSector = p.firstSector ∧
      m'.proc.firstSector = p'.firstSector)
    (fun m m' s hR hC hnext => by
      obtain ⟨hrel, hsector, hsector'⟩ := hR
      rw [← hsector, ← hsector'] at hC
      obtain ⟨s₁, s', hs, hs', hrel'⟩ | ⟨e, he, _⟩ := relocated_next hrel hC
      · cases hs.symm.trans hnext
        exact ⟨s', hs', hrel', (Machine.keeps_next hs).layout.firstSector.trans hsector,
          (Machine.keeps_next hs').layout.firstSector.trans hsector'⟩
      · cases he.symm.trans hnext)
    ⟨hstart, rfl, rfl⟩ (hmove.mono (Nat.le_succ n)) hrun
  have hC := hmove n (Nat.lt_succ_self n) m hrun
  rw [← hsector, ← hsector'] at hC
  exact ⟨m', hrun', hrel.inStep hC⟩

/-- `PRINT 65` and `HALT`. -/
def printA : List MemCell := [0, 2, 0x01, 0, 65, 0xFF]

/-- Nothing but `HALT`s. -/
def halts : List MemCell := [0, 2, 0xFF, 0xFF, 0xFF, 0xFF, 0xFF, 0xFF, 0xFF, 0xFF]

/-- A fresh VM that has loaded them, and an image behind them. -/
def behindHalts (image : List MemCell) : VM :=
  (freshVM halts).placed 2010 [⟨UInt16.ofNat (4010 + image.length), 55893 - image.length⟩] image

def behindProcess (image : List MemCell) : Process := (freshVM halts).placedProcess 2010 image

/-- RAM behind what was loaded is still zero. -/
theorem freshVM_above {i : Nat} (h : halts.length + heapHeaderBlockSize ≤ i) {j : Nat} :
    (freshVM halts).ram i = VM.fresh.ram j := by
  refine (load_ram (load_fresh (by decide : halts.length + 2000 ≤ guiFlag))).kept i (.inr ?_)
  show 0 + _ + _ ≤ i
  omega

/-- The run at address 0, and the one behind the `HALT`s. -/
def atZero (image : List MemCell) : Machine := .headless (freshVM image) (freshProcess image) ⟨[], false⟩

def atBehind (image : List MemCell) : Machine :=
  .headless (behindHalts image) (behindProcess image) ⟨[], false⟩

theorem relocation_printA : ∃ m m', Machine.system.after 1 (atZero printA) = some m ∧
    Machine.system.after 1 (atBehind printA) = some m' ∧ InStep m m' := by
  have hload : VM.fresh.load printA = _ := load_fresh (by decide)
  have hload' : (freshVM halts).load printA = .ok (behindProcess printA, behindHalts printA) :=
    load_placed (by decide) (by decide)
  have hl := (Session.fresh.load_loaded hload).1
  have hfirst : current (atZero printA) = .print ⟨.number, 65⟩ := by decide
  have hnext := Machine.next_ok_of_perform hl (m := atZero printA) (by decide) (by rw [hfirst]; rfl)
  have hrun := System.after_succ_ok Machine.system (show Machine.system.next (atZero printA) = _ from hnext) 0
  have hmove : Machine.system.Within (Movable ((freshProcess printA).firstSector.toNat % 256 =
      (behindProcess printA).firstSector.toNat % 256)) 2 (atZero printA) := by
    intro k hk t ht
    match k, hk with
    | 0, _ =>
      cases ht
      exact ⟨by decide, fun _ => by rw [hfirst]; exact ⟨fun _ hi => (by cases hi), trivial⟩⟩
    | 1, _ =>
      cases hrun.symm.trans ht
      refine ⟨by decide, fun _ => ?_⟩
      rw [show current _ = Instruction.halt by decide]
      exact ⟨trivial, trivial⟩
  obtain ⟨m', hrun', hstep⟩ := relocation .fresh (.load halts .fresh (load_fresh (by decide))) (by decide)
    hload hload' rfl ⟨rfl, rfl⟩ (fun k _ => load_segment hload hload' (freshVM_above (by
      show 13 ≤ 2010 + k
      omega))) ⟨by decide, by decide⟩ ⟨[], false⟩ hmove hrun
  exact ⟨_, m', hrun, hrun', hstep⟩

/-- `CALL 6`, at 6 `PRINT 65`, then `HALT`. -/
def callImage : List MemCell := [0, 2, 0xB1, 2, 0, 6, 0x01, 0, 65, 0xFF]

/-- What a run has printed after `n` turns, and how it ends there. -/
def endingAfter (n : Nat) (m : Machine) : Option (List MemCell × Ending) :=
  (Machine.system.after n m).bind fun m => match m.next with
    | .ok _ => none
    | .error e => some (m.cout, e)

/-- At address 0 the call reaches the program's own code; behind the `HALT`s it reaches
one of them. -/
theorem relocation_call :
    VM.fresh.load callImage = .ok (freshProcess callImage, freshVM callImage) ∧
    (freshVM halts).load callImage = .ok (behindProcess callImage, behindHalts callImage) ∧
    (∀ k < (freshProcess callImage).allocatedMemory,
      (behindHalts callImage).ram ((behindProcess callImage).firstSector.toNat + k) =
        (freshVM callImage).ram ((freshProcess callImage).firstSector.toNat + k)) ∧
    endingAfter 3 (atZero callImage) = some ([65], .halted) ∧
    endingAfter 2 (atBehind callImage) = some ([], .halted) := by
  have hload : VM.fresh.load callImage = _ := load_fresh (by decide)
  have hload' : (freshVM halts).load callImage = .ok (behindProcess callImage, behindHalts callImage) :=
    load_placed (by decide) (by decide)
  refine ⟨hload, hload', fun k _ => load_segment hload hload' (freshVM_above ?_), ?_, ?_⟩
  · show 13 ≤ 2010 + k
    omega
  · decide +kernel
  · decide +kernel

end CustomIsaVm
