import Mathlib.Data.Set.Basic
import CustomIsaVm.Machine.Isolation

/-! What a run depends on.

`reads` are the registers and flags the instruction at PC reads, `writes` those it
sets. RAM needs no such list, since the record of accesses tells: `Covered D` says that
each cell of `D` was written before it was read. Two machines are `Twin`s if they differ
in cells of `D` that were not written yet and outside the registers and flags `K` at
most. A program `Tracks` if twins do the same in it as long as it reads what they agree
on; the rules below follow the programs up to a turn of the loop (`tracks_step`), and
twins whose run reads nothing else behave alike (`Tracked.same`). -/
namespace CustomIsaVm

open Effect Exec

/-! ### Registers and flags -/

/-- What of the CPU is shared by all processes of a VM. -/
inductive Part where
  | register (r : Fin 5)
  | zero
  | sign
  deriving DecidableEq, Repr

/-- The register that an operand names. -/
def namedPart (value : MemAddr) : Set Part := {x | ∃ r, registerOf value = some r ∧ x = .register r}

/-- What resolving an operand to a cell reads. -/
def placeParts (arg : RawArgument) : Set Part :=
  {x | arg.type = .indirectReg ∧ x ∈ namedPart arg.value}

/-- What taking the value of an operand reads. -/
def valueParts (arg : RawArgument) : Set Part :=
  {x | (arg.type = .register ∨ arg.type = .indirectReg) ∧ x ∈ namedPart arg.value}

/-- What assigning to an operand sets. -/
def assignedParts (arg : RawArgument) : Set Part :=
  {x | arg.type = .register ∧ x ∈ namedPart arg.value}

/-- What the index of a pixel reads: two registers, or one with an address. -/
def pixelParts (index : RawArgument) : Set Part :=
  {x | index.type = .register ∧ (x ∈ namedPart index.value ∨ x ∈ namedPart (index.value + 1)) ∨
    index.type = .indirectReg ∧ x ∈ namedPart index.value}

/-- `s`, where it comes to that. -/
def upon (c : Prop) (s : Set Part) : Set Part := {x | c ∧ x ∈ s}

theorem upon_subset {c : Prop} {s K : Set Part} : upon c s ⊆ K ↔ (c → s ⊆ K) :=
  ⟨fun h hc _ hx => h ⟨hc, hx⟩, fun h _ hx => h hx.1 hx.2⟩

theorem placeParts_subset (arg : RawArgument) : placeParts arg ⊆ valueParts arg :=
  fun _ h => ⟨.inr h.1, h.2⟩

/-- The program returns. -/
def Completes {α : Type} (x : Exec α) (m : Machine) : Prop := ∃ a n, x m = .ok a n

/-- The block `HALLOC` takes. -/
def hallocFinds (size : RawArgument) : Exec (MemAddr × Nat) := do
  let n ← wordValue (size.type = .number) size
  hallocScan n.toNat loopFuel (← get).proc.heapStart

/-- The pixel index of `FBSET`, in GUI mode. -/
def fbsetIndex (index : RawArgument) : Exec MemAddr := do
  raiseIf (¬ (← getGui)) .notInGuiMode
  pixelIndex index

/-- The registers and flags that an instruction reads, up to where it stops. -/
def reads (m : Machine) : Instruction → Set Part
  | .mov dest src => valueParts src ∪ upon (Completes (operandValue src) m) (placeParts dest)
  | .print el => valueParts el
  | .add a b | .sub a b | .mul a b =>
    valueParts b ∪ upon (Completes (operandValue b) m) (valueParts a)
  | .div a b => valueParts b ∪ upon (∃ v n, operandValue b m = .ok v n ∧ v ≠ 0) (valueParts a)
  | .input arg => upon (Completes inputValue m) (placeParts arg)
  | .jmp target => upon (target.type ≠ .address) (valueParts target)
  | .cmp arg1 arg2 => valueParts arg1 ∪ upon (Completes (operandValue arg1) m) (valueParts arg2)
  | .je arg => {.zero} ∪ upon (m.zero ∧ ¬ (arg.type = .number ∨ arg.type = .address)) (valueParts arg)
  | .jne arg => {.zero} ∪ upon (!m.zero ∧ ¬ (arg.type = .number ∨ arg.type = .address)) (valueParts arg)
  | .jg arg => {.sign} ∪ upon (m.sign ∧ ¬ (arg.type = .number ∨ arg.type = .address)) (valueParts arg)
  | .jng arg => {.sign} ∪ upon (!m.sign ∧ ¬ (arg.type = .number ∨ arg.type = .address)) (valueParts arg)
  | .spush arg => upon (arg.type ≠ .number) (valueParts arg)
  | .spop arg => upon (m.proc.sp.toNat + stackWidth arg.type ≤ m.proc.top) (placeParts arg)
  | .halloc place size =>
    upon (size.type ≠ .number) (valueParts size) ∪ upon (Completes (hallocFinds size) m) (placeParts place)
  | .hfree userstart => upon (userstart.type ≠ .address) (valueParts userstart)
  | .fbset index color =>
    upon (index.type ≠ .indirectLbl ∧ m.getGui)
      (pixelParts index ∪ upon (Completes (fbsetIndex index) m) (valueParts color))
  | .nop | .printflush | .call _ | .ret | .fbsync | .halt | .unknown _ => ∅

/-- The registers and flags that an instruction sets. -/
def writes : Instruction → Set Part
  | .mov dest _ => assignedParts dest
  | .add a _ | .sub a _ | .mul a _ | .div a _ => assignedParts a
  | .input arg | .spop arg => assignedParts arg
  | .halloc place _ => assignedParts place
  | .cmp _ _ => {.zero, .sign}
  | .nop | .print _ | .printflush | .jmp _ | .je _ | .jne _ | .jg _ | .jng _ | .spush _ | .hfree _
  | .call _ | .ret | .fbset _ _ | .fbsync | .halt | .unknown _ => ∅

/-- The first `n` turns read no register and no flag but those in `K` and those that the
turns before have set. -/
def ReadsOnly : Nat → Set Part → Machine → Prop
  | 0, _, _ => True
  | n + 1, K, m => m.goesOn = true → reads (fetched m) (current m) ⊆ K ∧
      ∀ m', m.next = .ok m' → ReadsOnly n (K ∪ writes (current m)) m'

theorem readsOnly_univ (n : Nat) (m : Machine) : ReadsOnly n Set.univ m := by
  induction n generalizing m with
  | zero => trivial
  | succ n ih =>
    refine fun _ => ⟨Set.subset_univ _, fun m' _ => ?_⟩
    rw [Set.univ_union]
    exact ih m'

theorem ReadsOnly.halted {m : Machine} (h : m.goesOn = false) (n : Nat) (K : Set Part) : ReadsOnly n K m := by
  cases n with
  | zero => trivial
  | succ n => exact fun hgo => absurd (hgo.symm.trans h) (by decide)

theorem ReadsOnly.turn {K : Set Part} {m m' : Machine} (hreads : reads (fetched m) (current m) ⊆ K)
    (hnext : m.next = .ok m') (h : ∀ n, ReadsOnly n (K ∪ writes (current m)) m') (n : Nat) :
    ReadsOnly n K m := by
  cases n with
  | zero => trivial
  | succ n =>
    refine fun _ => ⟨hreads, fun m₁ hm₁ => ?_⟩
    cases hnext.symm.trans hm₁
    exact h n

/-! ### RAM -/

/-- The access reads the cell `i`. -/
def Access.Reads (i : Nat) : Access → Prop
  | .fetch j | .load j | .flag j => j = i
  | .store _ | .pixel _ => False

theorem Access.Reads.address {a : Access} {i : Nat} (h : a.Reads i) : a.address = i := by
  cases a with
  | fetch j => exact h
  | load j => exact h
  | flag j => exact h
  | store j => exact h.elim
  | pixel j => exact h.elim

/-- Of the cells in `D`, each was written before it was read. -/
def Covered (D : Set Nat) : List Access → Prop
  | [] => True
  | a :: before => Covered D before ∧ ∀ i ∈ D, a.Reads i → .store i ∈ before ∨ .pixel i ∈ before

theorem Covered.start {D : Set Nat} {t u : List Access} (h : Covered D u) (hsub : t <:+ u) : Covered D t := by
  obtain ⟨v, rfl⟩ := hsub
  induction v with
  | nil => exact h
  | cons a v ih => exact ih h.1

/-- What the accesses do not read need not be covered. -/
theorem covered_of_not_reads {D : Set Nat} {t : List Access} (h : ∀ a ∈ t, ∀ i ∈ D, ¬ a.Reads i) :
    Covered D t := by
  induction t with
  | nil => trivial
  | cons a t ih =>
    exact ⟨ih fun b hb => h b (List.mem_cons_of_mem a hb), fun i hi ha =>
      absurd ha (h a (List.mem_cons_self ..) i hi)⟩

/-- It was so, whatever the program has come to. -/
def CoveredRun {α : Type} (D : Set Nat) (x : Exec α) (m : Machine) : Prop :=
  Ensures x (fun _ n => Covered D n.touched) (fun _ n => Covered D n.touched) m

theorem CoveredRun.start {α : Type} {D : Set Nat} {x : Exec α} {m : Machine} (h : CoveredRun D x m)
    (hframe : RespectsAt Machine.Keeps x m) : Covered D m.touched := by
  cases hrun : x m with
  | ok a n => exact ((ensures_of_ok hrun).mp h).start (hframe.ok hrun).touched
  | error e n => exact ((ensures_of_error hrun).mp h).start (hframe.error hrun).touched

/-! ### Twins -/

/-- Two headless machines that agree up to cells of `D` which were not written yet, and on
the registers and flags in `K`. -/
structure Twin (D : Set Nat) (K : Set Part) (m m' : Machine) : Prop where
  proc : m'.proc = m.proc
  cin : m'.cin = m.cin
  cout : m'.cout = m.cout
  row : m'.row = m.row
  touched : m'.touched = m.touched
  headless : m.window = .uninitialised
  headless' : m'.window = .uninitialised
  registers : ∀ r, .register r ∈ K → m'.registers r = m.registers r
  zero : .zero ∈ K → m'.zero = m.zero
  sign : .sign ∈ K → m'.sign = m.sign
  ram : ∀ i, m'.ram i ≠ m.ram i → i ∈ D ∧ ¬ m.Wrote i

theorem Twin.mono {D : Set Nat} {K K' : Set Part} {m m' : Machine} (h : Twin D K m m') (hsub : K' ⊆ K) :
    Twin D K' m m' :=
  {h with
    registers := fun r hr => h.registers r (hsub hr)
    zero := fun hz => h.zero (hsub hz)
    sign := fun hs => h.sign (hsub hs)}

theorem Twin.goesOn {D : Set Nat} {K : Set Part} {m m' : Machine} (h : Twin D K m m') :
    m'.goesOn = m.goesOn := by
  rw [Machine.goesOn, Machine.goesOn, h.proc]

/-- Twins that agree on `K` do the same in `x`, and agree on `K'` after it, as long as `x`
reads no cell of `D` before it was written. -/
structure Tracks {α : Type} (D : Set Nat) (K K' : Set Part) (x : Exec α) (m : Machine) : Prop where
  frame : RespectsAt Machine.Keeps x m
  alike : CoveredRun D x m → ∀ m', Twin D K m m' →
    Alike x x (fun a b n n' => b = a ∧ Twin D K' n n') (fun _ _ => True) m m'

section
variable {α β : Type} {D : Set Nat} {K K' K₁ : Set Part} {m : Machine}

theorem tracks_pure (a : α) : Tracks D K K (pure a : Exec α) m where
  frame := .refl m
  alike _ _ ht := ⟨rfl, ht⟩

theorem tracks_throw (e : Stop) : Tracks D K K' (throw e : Exec α) m where
  frame := .refl m
  alike _ _ _ := ⟨rfl, trivial⟩

theorem tracks_raise (e : Error) : Tracks D K K' (raise e : Exec α) m := tracks_throw _

theorem Tracks.mono {x : Exec α} (h : Tracks D K K₁ x m) (hsub : K' ⊆ K₁) : Tracks D K K' x m where
  frame := h.frame
  alike hc m' ht := (h.alike hc m' ht).mono fun _ _ _ _ hab => ⟨hab.1, hab.2.mono hsub⟩

theorem Tracks.ite {c : Prop} [Decidable c] {x y : Exec α} (hx : c → Tracks D K K' x m)
    (hy : ¬ c → Tracks D K K' y m) : Tracks D K K' (if c then x else y) m := by
  split
  · exact hx ‹_›
  · exact hy ‹_›

theorem Tracks.bind {x : Exec α} {f : α → Exec β} (hx : Tracks D K K₁ x m)
    (hf : ∀ a n, x m = .ok a n → Tracks D K₁ K' (f a) n) : Tracks D K K' (x >>= f) m where
  frame := hx.frame.bind fun a n hrun => (hf a n hrun).frame
  alike hc m' ht := by
    cases hrun : x m with
    | error e n =>
      have hfirst : CoveredRun D x m :=
        (ensures_of_error hrun).mpr ((ensures_of_error (bind_error hrun)).mp hc)
      obtain ⟨n', hrun', _⟩ := (hx.alike hfirst m' ht).error hrun
      unfold Alike
      rw [bind_error hrun, bind_error hrun']
      exact ⟨rfl, trivial⟩
    | ok a n =>
      have hrest := hf a n hrun
      have hc' : CoveredRun D (f a) n := by
        rw [CoveredRun, ensures_bind, ensures_of_ok hrun] at hc
        exact hc
      have hfirst : CoveredRun D x m := (ensures_of_ok hrun).mpr (hc'.start hrest.frame)
      obtain ⟨b, n', hrun', rfl, hn⟩ := (hx.alike hfirst m' ht).ok hrun
      have halike := hrest.alike hc' n' hn
      unfold Alike at halike ⊢
      rw [bind_ok hrun, bind_ok hrun']
      exact halike

/-- What goes on with a part of the state that twins share. -/
theorem Tracks.get_bind {f : Machine → Exec α} (hsame : ∀ m', Twin D K m m' → f m' = f m)
    (h : Tracks D K K' (f m) m) : Tracks D K K' (get >>= f) m where
  frame := h.frame
  alike hc m' ht := by
    have halike := h.alike hc m' ht
    unfold Alike at halike ⊢
    rw [bind_ok (get_run m), bind_ok (get_run m'), hsame m' ht]
    exact halike

theorem tracks_modify {f : Machine → Machine} (hframe : m.Keeps (f m))
    (h : ∀ m', Twin D K m m' → Twin D K' (f m) (f m')) : Tracks D K K' (modify f : Exec Unit) m where
  frame := hframe
  alike _ m' ht := ⟨rfl, h m' ht⟩

theorem tracks_raiseIf {c : Prop} [Decidable c] {e : Error} : Tracks D K K (raiseIf c e) m :=
  .ite (fun _ => tracks_raise e) fun _ => tracks_pure ()

/-- An update of PC, SP and the running flag only. -/
theorem tracks_proc {f : Machine → Process} (hlayout : m.proc.SameLayout (f m))
    (hsame : ∀ m', Twin D K m m' → f m' = f m) :
    Tracks D K K (modify fun m => {m with proc := f m} : Exec Unit) m :=
  tracks_modify ⟨hlayout, rfl, rfl, rfl, List.prefix_refl _, List.suffix_refl _, fun _ _ => rfl⟩
    fun m' ht => {ht with proc := hsame m' ht}

end

/-! ### RAM accesses -/

section
variable {D : Set Nat} {K : Set Part} {m m' : Machine} {access : Nat → Access} {i : Nat}

/-- One access, after which twins differ in no cell that it wrote, and in no new one. -/
theorem Twin.record {a : Access} {ram ram' : Nat → MemCell} (h : Twin D K m m')
    (hram : ∀ j, ram' j ≠ ram j → m'.ram j ≠ m.ram j ∧ a ≠ .store j ∧ a ≠ .pixel j) :
    Twin D K {m with ram := ram, touched := a :: m.touched}
      {m' with ram := ram', touched := a :: m'.touched} :=
  {h with
    touched := congrArg (a :: ·) h.touched
    ram := fun j hj => by
      obtain ⟨hne, hstore, hpixel⟩ := hram j hj
      obtain ⟨hin, hnot⟩ := h.ram j hne
      refine ⟨hin, fun hwrote => hnot (hwrote.imp (fun hmem => ?_) fun hmem => ?_)⟩
      · exact (List.mem_cons.mp hmem).resolve_left hstore.symm
      · exact (List.mem_cons.mp hmem).resolve_left hpixel.symm}

theorem tracks_access (hread : (access i).Reads i) : Tracks D K K (load access i) m where
  frame := (framed_load access i).at m
  alike hc m' ht := by
    have hkind : ∀ j, access i ≠ .store j ∧ access i ≠ .pixel j := by
      intro j
      constructor <;> intro heq <;> rw [heq] at hread <;> exact hread
    unfold Alike
    by_cases hlt : i < ramSize
    · have hcovered := (ensures_of_ok (Exec.load_ok hlt)).mp hc
      -- a cell in which the twins differ would have been written before
      have hsame : m'.ram i = m.ram i := by
        by_contra hne
        obtain ⟨hi, hnot⟩ := ht.ram i hne
        exact hnot (hcovered.2 i hi hread)
      rw [Exec.load_ok hlt, Exec.load_ok hlt]
      exact ⟨hsame, ht.record fun j hj => ⟨hj, hkind j⟩⟩
    · unfold load
      rw [if_neg hlt, if_neg hlt]
      exact ⟨rfl, trivial⟩

theorem tracks_fetch (i : Nat) : Tracks D K K (load .fetch i) m := tracks_access rfl

theorem tracks_load (i : Nat) : Tracks D K K (load .load i) m := tracks_access rfl

theorem tracks_store (v : MemCell) (hwrite : access i = .store i ∨ access i = .pixel i) :
    Tracks D K K (store access i v) m where
  frame := (framed_store access i v hwrite).at m
  alike _ m' ht := by
    unfold Alike
    by_cases hlt : i < ramSize
    · rw [store_ok hlt, store_ok hlt]
      refine ⟨rfl, ht.record fun j hj => ?_⟩
      have hji : j ≠ i := by
        rintro rfl
        exact hj (by rw [Function.update_self, Function.update_self])
      rw [Function.update_of_ne hji, Function.update_of_ne hji] at hj
      refine ⟨hj, ?_⟩
      rcases hwrite with hw | hw <;> rw [hw] <;> simp [hji.symm]
    · unfold store
      rw [if_neg hlt, if_neg hlt]
      exact ⟨rfl, trivial⟩

end

/-! ### Operands -/

section
variable {D : Set Nat} {K : Set Part} {m : Machine} {arg : RawArgument}

/-- The register that a cell is, if it is one. -/
def Exec.Cell.parts : Exec.Cell → Set Part
  | .register r => {.register r}
  | .ram _ => ∅

theorem tracks_advance (n : MemAddr) : Tracks D K K (advance n) m :=
  tracks_proc ⟨rfl, rfl, rfl, rfl, rfl, rfl, rfl, rfl⟩ fun m' ht => by rw [ht.proc]

theorem tracks_fetchArgument : Tracks D K K fetchArgument m := by
  unfold fetchArgument
  refine .get_bind (fun m' ht => by rw [ht.proc]) ?_
  refine (tracks_fetch _).bind fun type m₁ _ => (tracks_advance _).bind fun _ m₂ _ => ?_
  refine .ite (fun _ => .get_bind (fun m' ht => by rw [ht.proc]) ?_) fun _ => .ite
    (fun _ => .get_bind (fun m' ht => by rw [ht.proc]) ?_) fun _ => tracks_pure _
  · exact (tracks_fetch _).bind fun _ _ _ => (tracks_fetch _).bind fun _ _ _ =>
      (tracks_advance _).bind fun _ _ _ => tracks_pure _
  · exact (tracks_fetch _).bind fun _ _ _ => (tracks_advance _).bind fun _ _ _ => tracks_pure _

theorem registerIndex_eq (value : MemAddr) : registerIndex value =
    match registerOf value with
    | some r => pure r
    | none => throw .undefined := by
  unfold registerIndex registerOf
  split <;> rfl

theorem tracks_registerIndex (value : MemAddr) : Tracks D K K (registerIndex value) m := by
  unfold registerIndex
  split
  · exact tracks_pure _
  · exact tracks_throw _

theorem tracks_resolve (h : placeParts arg ⊆ K) :
    Tracks D K K (resolveWriteableArg arg.type arg.value) m := by
  obtain ⟨type, value⟩ := arg
  cases type with
  | register => exact (tracks_registerIndex _).bind fun _ _ _ => tracks_pure _
  | address => exact .get_bind (fun m' ht => by rw [ht.proc]) (tracks_pure _)
  | indirectMem => exact .get_bind (fun m' ht => by rw [ht.proc]) (tracks_pure _)
  | indirectLbl =>
    refine .get_bind (fun m' ht => by rw [ht.proc]) ?_
    exact (tracks_load _).bind fun _ _ _ => (tracks_load _).bind fun _ _ _ =>
      .get_bind (fun m' ht => by rw [ht.proc]) (tracks_pure _)
  | indirectReg =>
    refine (tracks_registerIndex _).bind fun r n hr => ?_
    have hknown : Part.register r ∈ K := h ⟨rfl, r, (registerIndex_ok hr).1, rfl⟩
    refine .get_bind (fun m' ht => by rw [ht.proc]) (.get_bind (fun m' ht => ?_) (tracks_pure _))
    rw [ht.registers r hknown]
  | number => exact tracks_raise _
  | number16 => exact tracks_raise _
  | other b => exact tracks_raise _

theorem tracks_read {c : Cell} (h : c.parts ⊆ K) : Tracks D K K c.read m := by
  cases c with
  | register r => exact .get_bind (fun m' ht => by rw [ht.registers r (h rfl)]) (tracks_pure _)
  | ram i => exact tracks_load _

theorem tracks_write {c : Cell} (v : MemCell) : Tracks D K (K ∪ c.parts) (c.write v) m := by
  cases c with
  | register r =>
    refine tracks_modify ((framed_write v (.register r)).ok rfl) fun m' ht => ?_
    refine {ht with registers := fun s hs => ?_, zero := fun hz => ?_, sign := fun hz => ?_}
    · show Function.update m'.registers r v s = Function.update m.registers r v s
      by_cases hsr : s = r
      · rw [hsr, Function.update_self, Function.update_self]
      · rw [Function.update_of_ne hsr, Function.update_of_ne hsr]
        exact ht.registers s (hs.resolve_right fun heq => hsr (Part.register.inj heq))
    · exact ht.zero (hz.resolve_right fun heq => by cases heq)
    · exact ht.sign (hz.resolve_right fun heq => by cases heq)
  | ram i => exact (tracks_store v (.inl rfl)).mono (by rw [Cell.parts, Set.union_empty])

/-- The register that an operand denotes, if it does, is the one it names. -/
theorem cellOf_parts {c : Cell} (h : cellOf m arg = some c) : c.parts = assignedParts arg := by
  obtain ⟨type, value⟩ := arg
  cases type with
  | register =>
    simp only [cellOf, Option.map_eq_some_iff] at h
    obtain ⟨r, hr, rfl⟩ := h
    ext x
    simp [Cell.parts, assignedParts, namedPart, hr]
  | address => cases h; simp [Cell.parts, assignedParts]
  | indirectMem => cases h; simp [Cell.parts, assignedParts]
  | indirectLbl =>
    simp only [cellOf] at h
    split at h
    · cases h; simp [Cell.parts, assignedParts]
    · cases h
  | indirectReg =>
    simp only [cellOf, Option.map_eq_some_iff] at h
    obtain ⟨r, hr, rfl⟩ := h
    simp [Cell.parts, assignedParts]
  | number => cases h
  | number16 => cases h
  | other b => cases h

theorem assignedParts_subset (arg : RawArgument) : assignedParts arg ⊆ valueParts arg :=
  fun _ h => ⟨.inl h.1, h.2⟩

theorem tracks_cellValue (h : valueParts arg ⊆ K) : Tracks D K K (cellValue arg) m :=
  (tracks_resolve ((placeParts_subset arg).trans h)).bind fun c n hc => tracks_read (by
    rw [cellOf_parts (resolve_eq_ok hc).1]
    exact (assignedParts_subset arg).trans h)

theorem tracks_operandValue (h : valueParts arg ⊆ K) : Tracks D K K (operandValue arg) m :=
  .ite (fun _ => tracks_pure _) fun _ => tracks_cellValue h

theorem tracks_wordValue {c : Prop} [Decidable c] (h : ¬ c → valueParts arg ⊆ K) :
    Tracks D K K (wordValue c arg) m :=
  .ite (fun _ => tracks_pure _) fun hc => (tracks_cellValue (h hc)).bind fun _ _ _ => tracks_pure _

/-- `resolve_writeable_arg(..) = v`. -/
theorem tracks_assign (v : MemCell) (h : placeParts arg ⊆ K) : Tracks D K (K ∪ assignedParts arg)
    (resolveWriteableArg arg.type arg.value >>= fun c => c.write v) m :=
  (tracks_resolve h).bind fun c n hc => by
    rw [← cellOf_parts (resolve_eq_ok hc).1]
    exact tracks_write v

theorem tracks_updateCell (op : MemCell → MemCell → MemCell) (v : MemCell) (h : valueParts arg ⊆ K) :
    Tracks D K (K ∪ assignedParts arg) (updateCell op arg v) m :=
  (tracks_resolve ((placeParts_subset arg).trans h)).bind fun c n hc => by
    have hparts := cellOf_parts (resolve_eq_ok hc).1
    refine (tracks_read ?_).bind fun w _ _ => ?_
    · rw [hparts]
      exact (assignedParts_subset arg).trans h
    · rw [← hparts]
      exact tracks_write _

end

/-! ### Instructions -/

section
variable {D : Set Nat} {K : Set Part} {m : Machine}

theorem tracks_printed (bytes : List MemCell) : Tracks D K K (printed bytes) m :=
  tracks_modify ((framed_printed bytes).ok rfl) fun m' ht => {ht with cout := by rw [ht.cout]}

theorem tracks_mov {dest src : RawArgument} (hsrc : valueParts src ⊆ K)
    (hdest : Completes (operandValue src) m → placeParts dest ⊆ K) :
    Tracks D K (K ∪ assignedParts dest) (mov dest src) m :=
  (tracks_operandValue hsrc).bind fun v n hv => tracks_assign v (hdest ⟨v, n, hv⟩)

theorem tracks_print {el : RawArgument} (h : valueParts el ⊆ K) : Tracks D K K (print el) m :=
  (tracks_operandValue h).bind fun _ _ _ => tracks_printed _

/-- `ADD`, `SUB` and `MUL`. -/
theorem tracks_update {op : MemCell → MemCell → MemCell} {a b : RawArgument} (hb : valueParts b ⊆ K)
    (ha : Completes (operandValue b) m → valueParts a ⊆ K) :
    Tracks D K (K ∪ assignedParts a) (operandValue b >>= updateCell op a) m :=
  (tracks_operandValue hb).bind fun v n hv => tracks_updateCell op v (ha ⟨v, n, hv⟩)

theorem tracks_div {a b : RawArgument} (hb : valueParts b ⊆ K)
    (ha : (∃ v n, operandValue b m = .ok v n ∧ v ≠ 0) → valueParts a ⊆ K) :
    Tracks D K (K ∪ assignedParts a) (div a b) m :=
  (tracks_operandValue hb).bind fun v n hv => tracks_raiseIf.bind fun _ _ hcheck =>
    tracks_updateCell _ v (ha ⟨v, n, hv, (raiseIf_ok hcheck).1⟩)

theorem tracks_getGui : Tracks D K K getGui m :=
  (tracks_access (show (Access.flag guiFlag).Reads guiFlag from rfl)).bind fun _ _ _ => tracks_pure _

theorem tracks_extractInput : Tracks D K K extractInput m where
  frame := framed_extractInput.at m
  alike _ m' ht := by
    unfold Alike extractInput
    dsimp only
    rw [ht.cin]
    exact ⟨rfl, {ht with cin := rfl}⟩

theorem tracks_inputValue (hwindow : m.window = .uninitialised) : Tracks D K K inputValue m := by
  refine tracks_getGui.bind fun gui n hgui => .ite (fun _ => ?_) fun _ => tracks_extractInput
  obtain ⟨-, t, rfl⟩ := getGui_eq_ok hgui
  refine .get_bind (fun m' ht => by rw [ht.headless, ht.headless']) ?_
  rw [show (recorded m t).window = .uninitialised from hwindow]
  exact tracks_throw _

theorem tracks_input {arg : RawArgument} (hwindow : m.window = .uninitialised)
    (h : Completes inputValue m → placeParts arg ⊆ K) : Tracks D K (K ∪ assignedParts arg) (input arg) m :=
  (tracks_inputValue hwindow).bind fun v n hv => tracks_assign v (h ⟨v, n, hv⟩)

theorem tracks_cmp {arg1 arg2 : RawArgument} (h₁ : valueParts arg1 ⊆ K)
    (h₂ : Completes (operandValue arg1) m → valueParts arg2 ⊆ K) :
    Tracks D K (K ∪ {.zero, .sign}) (cmp arg1 arg2) m := by
  refine (tracks_operandValue h₁).bind fun v n hv => (tracks_operandValue (h₂ ⟨v, n, hv⟩)).bind fun w _ _ => ?_
  refine tracks_modify ⟨.refl _, rfl, rfl, rfl, List.prefix_refl _, List.suffix_refl _, fun _ _ => rfl⟩
    fun m' ht => ?_
  exact {ht with
    registers := fun r hr => ht.registers r (hr.resolve_right (by simp))
    zero := fun _ => rfl
    sign := fun _ => rfl}

theorem tracks_jumpTo (offset : MemAddr) : Tracks D K K (jumpTo offset) m :=
  tracks_proc ⟨rfl, rfl, rfl, rfl, rfl, rfl, rfl, rfl⟩ fun m' ht => by rw [ht.proc]

theorem tracks_jmp {target : RawArgument} (h : target.type ≠ .address → valueParts target ⊆ K) :
    Tracks D K K (jmp target) m :=
  (tracks_wordValue h).bind fun _ _ _ => tracks_jumpTo _

/-- The conditional jumps; twins agree on what the condition looks at. -/
theorem tracks_jumpIf (condition : Bool → Bool → Bool) {arg : RawArgument}
    (hsame : ∀ m', Twin D K m m' → condition m'.zero m'.sign = condition m.zero m.sign)
    (h : condition m.zero m.sign = true ∧ ¬ (arg.type = .number ∨ arg.type = .address) →
      valueParts arg ⊆ K) : Tracks D K K (jumpIf condition arg) m :=
  .get_bind (fun m' ht => by rw [hsame m' ht]) (.ite (fun hc => (tracks_wordValue fun hi =>
    h ⟨hc, hi⟩).bind fun _ _ _ => tracks_jumpTo _) fun _ => tracks_pure _)

theorem tracks_lowerSP (n : Nat) : Tracks D K K (lowerSP n) m :=
  tracks_proc ⟨rfl, rfl, rfl, rfl, rfl, rfl, rfl, rfl⟩ fun m' ht => by rw [ht.proc]

theorem tracks_raiseSP (n : Nat) : Tracks D K K (raiseSP n) m :=
  tracks_proc ⟨rfl, rfl, rfl, rfl, rfl, rfl, rfl, rfl⟩ fun m' ht => by rw [ht.proc]

theorem tracks_spush {arg : RawArgument} (h : arg.type ≠ .number → valueParts arg ⊆ K) :
    Tracks D K K (spush arg) m := by
  refine (tracks_wordValue h).bind fun _ _ _ => (tracks_lowerSP _).bind fun _ _ _ =>
    .get_bind (fun m' ht => by rw [ht.proc]) (tracks_raiseIf.bind fun _ _ _ => ?_)
  exact .ite (fun _ => tracks_store _ (.inl rfl)) fun _ => (tracks_store _ (.inl rfl)).bind fun _ _ _ =>
    tracks_store _ (.inl rfl)

/-- `resolve_writeable_arg(..) = v`, and SP is raised. -/
theorem tracks_popTo {arg : RawArgument} (v : MemCell) (n : Nat) (h : placeParts arg ⊆ K) :
    Tracks D K (K ∪ assignedParts arg)
      (resolveWriteableArg arg.type arg.value >>= fun c => c.write v >>= fun _ => raiseSP n) m := by
  have hassign := (tracks_assign v h (D := D) (m := m)).bind fun _ n' _ => tracks_raiseSP n (m := n')
  rwa [bind_assoc] at hassign

theorem tracks_spop {arg : RawArgument}
    (h : m.proc.sp.toNat + stackWidth arg.type ≤ m.proc.top → placeParts arg ⊆ K) :
    Tracks D K (K ∪ assignedParts arg) (spop arg) m := by
  refine .get_bind (fun m' ht => by rw [ht.proc]) (tracks_raiseIf.bind fun _ n hcheck => ?_)
  have hplace := h (Nat.not_lt.mp (raiseIf_ok hcheck).1)
  refine .ite (fun _ => (tracks_load _).bind fun v _ _ => tracks_popTo v _ hplace) fun _ => ?_
  exact (tracks_load _).bind fun _ _ _ => (tracks_load _).bind fun _ _ _ => tracks_popTo _ _ hplace

theorem tracks_call (arg : RawArgument) : Tracks D K K (call arg) m := by
  refine tracks_raiseIf.bind fun _ _ _ => .get_bind (fun m' ht => by rw [ht.proc]) ?_
  refine (tracks_lowerSP _).bind fun _ _ _ => .get_bind (fun m' ht => by rw [ht.proc]) ?_
  exact tracks_raiseIf.bind fun _ _ _ => (tracks_store _ (.inl rfl)).bind fun _ _ _ =>
    (tracks_store _ (.inl rfl)).bind fun _ _ _ =>
      tracks_proc ⟨rfl, rfl, rfl, rfl, rfl, rfl, rfl, rfl⟩ fun m' ht => by rw [ht.proc]

theorem tracks_ret : Tracks D K K ret m := by
  refine .get_bind (fun m' ht => by rw [ht.proc]) (tracks_raiseIf.bind fun _ _ _ => ?_)
  exact (tracks_load _).bind fun _ _ _ => (tracks_load _).bind fun _ _ _ =>
    (tracks_raiseSP _).bind fun _ _ _ =>
      tracks_proc ⟨rfl, rfl, rfl, rfl, rfl, rfl, rfl, rfl⟩ fun m' ht => by rw [ht.proc]

theorem tracks_header (start : MemAddr) : Tracks D K K (header start) m :=
  (tracks_load _).bind fun _ _ _ => (tracks_load _).bind fun _ _ _ => (tracks_load _).bind fun _ _ _ =>
    tracks_pure _

theorem tracks_hallocScan (size fuel : Nat) (cursor : MemAddr) :
    Tracks D K K (hallocScan size fuel cursor) m := by
  induction fuel generalizing m cursor with
  | zero => exact tracks_throw _
  | succ fuel ih =>
    refine .get_bind (fun m' ht => by rw [ht.proc]) (tracks_raiseIf.bind fun _ _ _ => ?_)
    exact (tracks_header _).bind fun _ _ _ => .ite (fun _ => ih _) fun _ =>
      .ite (fun _ => tracks_pure _) fun _ => ih _

theorem tracks_writeHeader (start size : Nat) (status : HeapReg) :
    Tracks D K K (writeHeader start size status) m :=
  (tracks_store _ (.inl rfl)).bind fun _ _ _ => (tracks_store _ (.inl rfl)).bind fun _ _ _ =>
    tracks_store _ (.inl rfl)

theorem tracks_carve (size chunk dimension : Nat) : Tracks D K K (Exec.carve size chunk dimension) m :=
  .ite (fun _ => (tracks_writeHeader _ _ _).bind fun _ _ _ => tracks_writeHeader _ _ _) fun _ =>
    tracks_writeHeader _ _ _

theorem tracks_halloc {place size : RawArgument} (hsize : size.type ≠ .number → valueParts size ⊆ K)
    (hplace : Completes (hallocFinds size) m → placeParts place ⊆ K) :
    Tracks D K (K ∪ assignedParts place) (halloc place size) m := by
  refine (tracks_wordValue hsize).bind fun n m₁ hn => .get_bind (fun m' ht => by rw [ht.proc]) ?_
  refine (tracks_hallocScan _ _ _).bind fun r m₂ hr => (tracks_carve _ _ _).bind fun _ m₃ _ => ?_
  refine tracks_assign _ (hplace ⟨r, m₂, ?_⟩)
  rw [hallocFinds, bind_ok hn, bind_ok (get_run m₁)]
  exact hr

theorem tracks_coalesce (fuel : Nat) (cursor : MemAddr) : Tracks D K K (Exec.coalesce fuel cursor) m := by
  induction fuel generalizing m cursor with
  | zero => exact tracks_throw _
  | succ fuel ih =>
    refine .get_bind (fun m' ht => by rw [ht.proc]) (.ite (fun _ => ?_) fun _ => tracks_pure _)
    refine (tracks_header _).bind fun _ _ _ => .ite (fun _ => ?_) fun _ => tracks_pure _
    refine (tracks_header _).bind fun _ _ _ => .ite (fun _ => ?_) fun _ => ih _
    exact (tracks_store _ (.inl rfl)).bind fun _ _ _ => (tracks_store _ (.inl rfl)).bind fun _ _ _ => ih _

theorem tracks_hfree {userstart : RawArgument} (h : userstart.type ≠ .address → valueParts userstart ⊆ K) :
    Tracks D K K (hfree userstart) m :=
  (tracks_wordValue h).bind fun _ _ _ => (tracks_load _).bind fun _ _ _ => tracks_raiseIf.bind fun _ _ _ =>
    (tracks_store _ (.inl rfl)).bind fun _ _ _ =>
      .get_bind (fun m' ht => by rw [ht.proc]) (tracks_coalesce _ _)

theorem tracks_pixelIndex {index : RawArgument} (h : pixelParts index ⊆ K) :
    Tracks D K K (pixelIndex index) m := by
  obtain ⟨type, value⟩ := index
  cases type with
  | number => exact tracks_pure _
  | number16 => exact tracks_pure _
  | register =>
    refine (tracks_cellValue fun x hx => h (.inl ⟨rfl, .inl hx.2⟩)).bind fun _ _ _ => ?_
    exact (tracks_cellValue fun x hx => h (.inl ⟨rfl, .inr hx.2⟩)).bind fun _ _ _ => tracks_pure _
  | indirectReg =>
    -- the registers are read off the state before the operand is looked at
    have hsame : ∀ m', Twin D K m m' → ∀ f : MemCell → Exec MemAddr,
        (do f (m'.registers (← registerIndex value))) = (do f (m.registers (← registerIndex value))) := by
      intro m' ht f
      cases hr : registerOf value with
      | none => rw [registerIndex_eq, hr]; rfl
      | some r =>
        have hknown : Part.register r ∈ K := h (.inr ⟨rfl, r, hr, rfl⟩)
        rw [registerIndex_eq, hr]
        simp only [pure_bind, ht.registers r hknown]
    refine .get_bind (fun m' ht => hsame m' ht fun v => do
      let realAddr := (← get).proc.firstSector + v.toUInt16
      return word (← load .load realAddr.toNat) (← load .load (realAddr.toNat + 1))) ?_
    refine (tracks_registerIndex _).bind fun r _ _ => ?_
    exact .get_bind (fun m' ht => by rw [ht.proc]) ((tracks_load _).bind fun _ _ _ =>
      (tracks_load _).bind fun _ _ _ => tracks_pure _)
  | indirectMem =>
    exact .get_bind (fun m' ht => by rw [ht.proc]) ((tracks_load _).bind fun _ _ _ =>
      (tracks_load _).bind fun _ _ _ => tracks_pure _)
  | address =>
    exact .get_bind (fun m' ht => by rw [ht.proc]) ((tracks_load _).bind fun _ _ _ =>
      (tracks_load _).bind fun _ _ _ => tracks_pure _)
  | indirectLbl => exact tracks_pure _
  | other b => exact tracks_pure _

theorem tracks_fbset {index color : RawArgument}
    (h : index.type ≠ .indirectLbl ∧ m.getGui = true →
      pixelParts index ⊆ K ∧ (Completes (fbsetIndex index) m → valueParts color ⊆ K)) :
    Tracks D K K (fbset index color) m := by
  refine tracks_raiseIf.bind fun _ m₁ hfirst => ?_
  obtain ⟨hlabel, rfl⟩ := raiseIf_ok hfirst
  refine tracks_getGui.bind fun gui m₂ hgui => tracks_raiseIf.bind fun _ m₃ hcheck => ?_
  have hon := (raiseIf_ok hcheck).1
  obtain ⟨hindex, hcolor⟩ := h ⟨hlabel, (getGui_eq_ok hgui).1 ▸ not_not.mp hon⟩
  refine (tracks_pixelIndex hindex).bind fun k m₄ hk => ?_
  have hcompletes : Completes (fbsetIndex index) m₁ := ⟨k, m₄, by
    rw [fbsetIndex, bind_ok hgui, bind_ok hcheck]
    exact hk⟩
  exact (tracks_operandValue (hcolor hcompletes)).bind fun _ _ _ => tracks_raiseIf.bind fun _ _ _ =>
    tracks_store _ (.inr rfl)

theorem tracks_fbsync (h : m.window = .uninitialised) : Tracks D K K' fbsync m where
  frame := framed_fbsync.at m
  alike _ m' ht := by
    obtain ⟨n, hrun⟩ := fbsync_headless h
    obtain ⟨n', hrun'⟩ := fbsync_headless ht.headless'
    unfold Alike
    rw [hrun, hrun']
    exact ⟨rfl, trivial⟩

/-- **Twins do the same in an instruction that reads what they agree on.** -/
theorem tracks_perform {i : Instruction} (hwindow : m.window = .uninitialised) (h : reads m i ⊆ K) :
    Tracks D K (K ∪ writes i) (perform i) m := by
  -- an instruction that sets nothing leaves `K` as it is
  have hkeep : ∀ {x : Exec Unit}, Tracks D K K x m → Tracks D K (K ∪ ∅) x m := fun hx =>
    hx.mono (by rw [Set.union_empty])
  cases i with
  | nop => exact hkeep (tracks_pure _)
  | mov dest src =>
    obtain ⟨hsrc, hdest⟩ := Set.union_subset_iff.mp h
    exact tracks_mov hsrc (upon_subset.mp hdest)
  | print el => exact hkeep (tracks_print h)
  | printflush => exact hkeep (tracks_printed _)
  | add a b =>
    obtain ⟨hb, ha⟩ := Set.union_subset_iff.mp h
    exact tracks_update hb (upon_subset.mp ha)
  | sub a b =>
    obtain ⟨hb, ha⟩ := Set.union_subset_iff.mp h
    exact tracks_update hb (upon_subset.mp ha)
  | mul a b =>
    obtain ⟨hb, ha⟩ := Set.union_subset_iff.mp h
    exact tracks_update hb (upon_subset.mp ha)
  | div a b =>
    obtain ⟨hb, ha⟩ := Set.union_subset_iff.mp h
    exact tracks_div hb (upon_subset.mp ha)
  | input arg => exact tracks_input hwindow (upon_subset.mp h)
  | jmp target => exact hkeep (tracks_jmp (upon_subset.mp h))
  | cmp arg1 arg2 =>
    obtain ⟨h₁, h₂⟩ := Set.union_subset_iff.mp h
    exact tracks_cmp h₁ (upon_subset.mp h₂)
  | je arg =>
    obtain ⟨hflag, harg⟩ := Set.union_subset_iff.mp h
    exact hkeep (tracks_jumpIf (fun zero _ => zero) (fun m' ht => ht.zero (hflag rfl)) (upon_subset.mp harg))
  | jne arg =>
    obtain ⟨hflag, harg⟩ := Set.union_subset_iff.mp h
    exact hkeep (tracks_jumpIf (fun zero _ => !zero) (fun m' ht => by rw [ht.zero (hflag rfl)]) (upon_subset.mp harg))
  | jg arg =>
    obtain ⟨hflag, harg⟩ := Set.union_subset_iff.mp h
    exact hkeep (tracks_jumpIf (fun _ sign => sign) (fun m' ht => ht.sign (hflag rfl)) (upon_subset.mp harg))
  | jng arg =>
    obtain ⟨hflag, harg⟩ := Set.union_subset_iff.mp h
    exact hkeep (tracks_jumpIf (fun _ sign => !sign) (fun m' ht => by rw [ht.sign (hflag rfl)]) (upon_subset.mp harg))
  | spush arg => exact hkeep (tracks_spush (upon_subset.mp h))
  | spop arg => exact tracks_spop (upon_subset.mp h)
  | halloc place size =>
    obtain ⟨hsize, hplace⟩ := Set.union_subset_iff.mp h
    exact tracks_halloc (upon_subset.mp hsize) (upon_subset.mp hplace)
  | hfree userstart => exact hkeep (tracks_hfree (upon_subset.mp h))
  | call arg => exact hkeep (tracks_call arg)
  | ret => exact hkeep tracks_ret
  | fbset index color =>
    refine hkeep (tracks_fbset fun hon => ?_)
    obtain ⟨hindex, hcolor⟩ := Set.union_subset_iff.mp (upon_subset.mp h hon)
    exact ⟨hindex, upon_subset.mp hcolor⟩
  | fbsync => exact tracks_fbsync hwindow
  | halt =>
    exact hkeep (tracks_proc ⟨rfl, rfl, rfl, rfl, rfl, rfl, rfl, rfl⟩ fun m' ht => by rw [ht.proc])
  | unknown opcode =>
    exact .get_bind (fun m' ht => by rw [ht.row]) (tracks_raise _)

end

/-! ### Turns of the loop -/

section
variable {D : Set Nat} {K : Set Part} {m : Machine}

theorem tracks_fetchArguments (n : Nat) : Tracks D K K (fetchArguments n) m := by
  induction n generalizing m with
  | zero => exact tracks_pure _
  | succ n ih => exact tracks_fetchArgument.bind fun _ _ _ => ih.bind fun _ _ _ => tracks_pure _

theorem tracks_fetchInstruction : Tracks D K K fetchInstruction m :=
  .get_bind (fun m' ht => by rw [ht.proc]) ((tracks_fetch _).bind fun _ _ _ =>
    (tracks_advance _).bind fun _ _ _ => (tracks_fetchArguments _).bind fun _ _ _ => tracks_pure _)

theorem fetchInstruction_fetched {size : Nat} (hl : Loaded size m.proc) (hgo : m.goesOn = true) :
    fetchInstruction m = .ok (current m) (fetched m) := by
  have hram : ramSize = 64000 := rfl
  have hflag : guiFlag = 59903 := rfl
  have hpc := (Machine.goesOn_pc hgo).2
  have hlast := hl.lastCodeSector
  have hfits := hl.fits
  exact fetchInstruction_current (by omega)

theorem tracks_step {size : Nat} (hl : Loaded size m.proc) (hgo : m.goesOn = true)
    (hwindow : m.window = .uninitialised) (h : reads (fetched m) (current m) ⊆ K) :
    Tracks D K (K ∪ writes (current m)) step m := by
  rw [step_eq]
  refine tracks_fetchInstruction.bind fun i n hi => ?_
  rw [fetchInstruction_fetched hl hgo] at hi
  cases hi
  refine (tracks_perform (m := fetched m) hwindow h).bind fun _ _ _ => ?_
  exact tracks_modify ⟨.refl _, rfl, rfl, rfl, List.prefix_refl _, List.suffix_refl _, fun _ _ => rfl⟩
    fun m' ht => {ht with row := by rw [ht.row]}

end

/-! ### Runs -/

/-- Twins that agree on `K₀` at least, of which the first runs on what they agree on. -/
structure Tracked (D : Set Nat) (K₀ : Set Part) (m m' : Machine) : Prop where
  loaded : ∃ size, Loaded size m.proc
  twin : ∃ K, K₀ ⊆ K ∧ Twin D K m m' ∧ ∀ n, ReadsOnly n K m
  covered : ∀ m₁, Machine.system.Reaches m m₁ → m₁.goesOn = true → CoveredRun D step m₁

namespace Tracked
variable {D : Set Nat} {K₀ : Set Part} {m m' n : Machine} {e : Ending}

/-- A turn of both: they end alike, or both go on. -/
theorem turn (h : Tracked D K₀ m m') : (∃ e, m.next = .error e ∧ m'.next = .error e) ∨
    ∃ n n', m.next = .ok n ∧ m'.next = .ok n' ∧ Tracked D K₀ n n' := by
  obtain ⟨⟨size, hl⟩, ⟨K, hK, ht, hreads⟩, hcovered⟩ := h
  have hgoesOn := ht.goesOn
  unfold Machine.next
  by_cases hgo : m.goesOn = true
  · have htracks := tracks_step (D := D) hl hgo ht.headless (hreads 1 hgo).1
    have halike := htracks.alike (hcovered m (.refl m) hgo) m' ht
    rw [if_pos hgo, if_pos (hgoesOn.trans hgo)]
    cases hstep : step m with
    | ok u n =>
      obtain ⟨_, n', hstep', -, htwin⟩ := halike.ok hstep
      have hnext : m.next = .ok n := by rw [Machine.next, if_pos hgo, hstep]
      refine .inr ⟨n, n', rfl, by rw [hstep'], ?_⟩
      exact {
        loaded := ⟨size, (Machine.keeps_next hnext).layout.loaded hl⟩
        twin := ⟨_, hK.trans Set.subset_union_left, htwin, fun k => (hreads (k + 1) hgo).2 n hnext⟩
        covered := fun m₁ hm₁ => hcovered m₁ (.trans (.single hnext) hm₁) }
    | error e n =>
      obtain ⟨n', hstep', -⟩ := halike.error hstep
      exact .inl ⟨.stopped e, rfl, by rw [hstep']⟩
  · rw [if_neg hgo, if_neg fun h => hgo (hgoesOn.symm.trans h), ht.proc]
    exact .inl ⟨_, rfl, rfl⟩

theorem cout (h : Tracked D K₀ m m') : m'.cout = m.cout := by
  obtain ⟨K, -, ht, -⟩ := h.twin
  exact ht.cout

def simulation (D : Set Nat) (K₀ : Set Part) : System.Simulation Machine.system Machine.system where
  Rel := Tracked D K₀
  output h := h.cout.symm
  advance {m m'} h := by
    rcases h.turn with ⟨e, he, he'⟩ | ⟨n, n', hn, hn', hrel⟩
    · exact .inl ⟨e, m, m', ⟨.refl m, he⟩, ⟨.refl m', he'⟩, h.cout.symm⟩
    · exact .inr ⟨n, n', .single hn, .single hn', hrel⟩

/-- **Twins that run on what they agree on behave alike.** -/
theorem same (h : Tracked D K₀ m m') : System.SameBehaviour Machine.system m Machine.system m' :=
  (simulation D K₀).same h

/-- They end alike, and agree on no less than before. -/
theorem ends (h : Tracked D K₀ m m') (he : Machine.system.Ends m e n) :
    ∃ n', Machine.system.Ends m' e n' ∧ Twin D K₀ n n' := by
  obtain ⟨⟨k, hk⟩, hend⟩ := he
  have hgo : ∀ s t s', Tracked D K₀ s t → True → Machine.system.next s = .ok s' →
      ∃ t', Machine.system.next t = .ok t' ∧ Tracked D K₀ s' t' := by
    intro s t s' hst _ hs'
    rcases hst.turn with ⟨f, hf, -⟩ | ⟨n, n', hn, hn', hrel⟩
    · cases hf.symm.trans hs'
    · cases hn.symm.trans hs'
      exact ⟨n', hn', hrel⟩
  obtain ⟨n', hk', hrel⟩ := System.lockstep hgo h (fun _ _ _ _ => trivial) hk
  obtain ⟨K, hK, ht, -⟩ := hrel.twin
  rcases hrel.turn with ⟨f, hf, hf'⟩ | ⟨_, _, hn, -⟩
  · cases hf.symm.trans hend
    exact ⟨n', ⟨⟨k, hk'⟩, hf'⟩, ht.mono hK⟩
  · cases hn.symm.trans hend

end Tracked

/-- Two VMs that differ in RAM cells of `D` and outside `K`, about to run one process. -/
theorem headless_twin {D : Set Nat} {K : Set Part} {vm vm' : VM} (p : Process) (cin : Stdin)
    (hgui : vm.getGui = false) (hgui' : vm'.getGui = false)
    (hregs : ∀ r, .register r ∈ K → vm'.registers r = vm.registers r) (hzero : .zero ∈ K → vm'.zero = vm.zero)
    (hsign : .sign ∈ K → vm'.sign = vm.sign) (hram : ∀ i, vm'.ram i ≠ vm.ram i → i ∈ D) :
    Twin D K (.headless vm p cin) (.headless vm' p cin) where
  proc := rfl
  cin := rfl
  cout := rfl
  row := rfl
  touched := rfl
  headless := by simp only [Machine.headless, Machine.boot, hgui]; rfl
  headless' := by simp only [Machine.headless, Machine.boot, hgui']; rfl
  registers := hregs
  zero := hzero
  sign := hsign
  ram i hi := ⟨hram i hi, fun hw => hw.elim List.not_mem_nil List.not_mem_nil⟩

end CustomIsaVm
