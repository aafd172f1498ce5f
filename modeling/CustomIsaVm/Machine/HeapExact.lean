import CustomIsaVm.Machine.Throw

/-! First fit, and what freeing restores.

`HALLOC` fails only where no free block is large enough, and else takes the lowest
one, whatever its destination (`halloc_first_fit`). A row without free neighbours is
determined by its owned blocks and its length, and `HFREE` takes one block out of
the owned ones: so it undoes `HALLOC`, blocks may be freed in any order, and with
the last one the heap is what the loader made it (`hfree_exact`). -/
namespace CustomIsaVm
open Effect Exec Blocks

variable {m m' : Machine} {bs front back : List Block} {b : Block} {place size : RawArgument} {v : MemAddr}

/-! ### Carving, whatever the destination -/

/-- The value of a word operand survives the fetch. -/
theorem wordOf_fetched (p : Prop) [Decidable p] (m : Machine) (arg : RawArgument) :
    wordOf p (fetched m) arg = wordOf p m arg := by
  have hvalue : ∀ c : Cell, c.value (fetched m) = c.value m := by
    intro c
    cases c with
    | register r => rfl
    | ram i => rfl
  unfold wordOf
  simp only [hvalue]
  rfl

theorem wordValue_fetched {p : Prop} [Decidable p] {arg : RawArgument} (hv : wordOf p m arg = some v) :
    ∃ t, wordValue p arg (fetched m) = .ok v (recorded (fetched m) t) := by
  rw [← wordOf_fetched] at hv
  exact wordOf_some.mp hv

/-- `HFREE` finds the block at the address that its operand says. -/
theorem freesOwned_of_word {arg : RawArgument} (hchain : HeapChain m (front ++ b :: back)) (howned : b.owned = true)
    (hv : wordOf (arg.type = .address) m arg = some v)
    (hpayload : v.toNat = m.proc.heapStart.toNat + span heapHeaderBlockSize front + heapHeaderBlockSize) :
    FreesOwned m arg front b back := by
  obtain ⟨t, ht⟩ := wordValue_fetched hv
  exact ⟨hchain, howned, v, t, ht, hpayload⟩

/-- The block is carved, and nothing outside it is touched. -/
structure Carved (m m₁ : Machine) (n : Nat) (front : List Block) (b : Block) (back : List Block) : Prop where
  inv : HeapInv m₁ (front ++ (Blocks.carve heapHeaderBlockSize n b ++ back))
  layout : m.proc.SameLayout m₁.proc
  registers : m₁.registers = m.registers
  kept : ∀ i, ¬ (m.proc.heapStart.toNat + span heapHeaderBlockSize front ≤ i ∧
    i < m.proc.heapStart.toNat + span heapHeaderBlockSize front + heapHeaderBlockSize + b.size) →
    m₁.ram i = m.ram i

/-- What is left of `HALLOC` once its block is carved, and of the turn. -/
def deliver (place : RawArgument) (payload : Nat) : Exec Unit := do
  (← resolveWriteableArg place.type place.value).write (lowByte payload)
  modify fun m => {m with row := m.row + 1}

theorem halloc_carves (h : HeapInv m (front ++ b :: back)) (hgo : m.goesOn = true)
    (hi : current m = .halloc place size) (hv : wordOf (size.type = .number) m size = some v)
    (hfront : ∀ c ∈ front, ¬ Serves v.toNat c) (hb : Serves v.toNat b) :
    ∃ m₁, Carved m m₁ v.toNat front b back ∧ step m = deliver place
      (m.proc.heapStart.toNat + span heapHeaderBlockSize front + heapHeaderBlockSize) m₁ := by
  obtain ⟨codeSize, hl⟩ := h.loaded
  have hf : HeapInv (fetched m) (front ++ b :: back) := h.congr (fetched_layout m) rfl
  rw [← wordOf_fetched] at hv
  obtain ⟨t, hword⟩ := wordOf_some.mp hv
  obtain ⟨u, ram, hrun, hchain, hout⟩ := halloc_serves place hf hword hfront hb
  have hserved : allocate heapHeaderBlockSize v.toNat (front ++ b :: back) =
      some (front ++ (Blocks.carve heapHeaderBlockSize v.toNat b ++ back)) := allocate_append hfront hb
  refine ⟨recorded (withRam (fetched m) ram) u, ⟨⟨⟨⟨codeSize, ?_⟩, hchain, ?_⟩, ?_, ?_⟩,
    ⟨rfl, rfl, rfl, rfl, rfl, rfl, rfl, rfl⟩, rfl, hout⟩, ?_⟩
  · exact ⟨hl.1, hl.2, hl.3, hl.4, hl.5, hl.6⟩
  · rw [span_allocate hserved]
    exact h.total
  · exact separated_allocate hserved h.separated
  · exact ends_allocate hserved h.ends
  · rw [Machine.step_fetched hl hgo, hi, complete, bind_run,
      show perform (.halloc place size) (fetched m) = _ from hrun, ← bind_run, bind_assoc]
    rfl

/-- A cell that is not a byte of a header. -/
def Spares (m : Machine) (c : Cell) : Prop := ∀ i, c = .ram i → ¬ HeaderByte m i

/-- Delivering the pointer to such a cell leaves the row as it is. -/
theorem deliver_spares (h : HeapInv m bs) {c : Cell} (hc : Denotes m place c) (hspares : Spares m c)
    (payload : Nat) : ∃ m', deliver place payload m = .ok () m' ∧ HeapInv m' bs ∧
      m.proc.SameLayout m'.proc := by
  obtain ⟨t, ht⟩ := assign_run (v := lowByte payload) hc
  obtain ⟨r, w, hr, hw⟩ := bind_eq_ok.mp ht
  have hrun : deliver place payload m =
      .ok () {recorded (put m (lowByte payload) c) t with row := m.row + 1} := by
    rw [deliver, bind_ok hr, bind_ok hw]
    cases c <;> rfl
  have hlayout : m.proc.SameLayout (put m (lowByte payload) c).proc := by
    cases c <;> exact .refl _
  refine ⟨_, hrun, ?_, hlayout⟩
  obtain ⟨codeSize, hl⟩ := h.loaded
  refine ⟨⟨⟨codeSize, hlayout.loaded hl⟩, ?_, h.total⟩, h.separated, h.ends⟩
  cases c with
  | register r => exact h.chain
  | ram i =>
    refine h.chain.congr fun p d hd j hj hj' => ?_
    exact Function.update_of_ne (fun heq => hspares i rfl ⟨bs, p, d, h.toHeapChain, hd, by omega, by omega⟩) _ _

/-- Delivering never raises the exception of the search. -/
theorem deliver_raises {e : Error} {payload : Nat} (h : deliver place payload m = .error (.throws e) m') :
    e ≠ .heapOverflow := by
  by_cases hcell : place.type.hasCell = true
  · refine absurd h (Silent.not_throws ?_)
    exact .bind (silent_resolveWriteableArg hcell _) fun c =>
      .bind (silent_write _ c) fun _ => .update _
  · obtain ⟨type, value⟩ := place
    cases type <;> first | exact absurd rfl hcell | (cases h; exact fun h => by cases h)

/-! ### First fit -/

theorem not_serves {n : Nat} {c : Block} : ¬ Serves n c ↔ (c.owned = false → c.size < n) := by
  unfold Serves
  constructor
  · intro h hfree
    by_contra hlt
    exact h ⟨hfree, by omega⟩
  · rintro h ⟨hfree, hle⟩
    have := h hfree
    omega

/-- **`HALLOC` is an exact first fit.** It raises, and leaves RAM as it is, exactly where
no free block is large enough; otherwise it carves the lowest free block that is, and
only then looks at its destination. A destination that is no header byte leaves the
row as carved. -/
theorem halloc_first_fit {m : Machine} {bs : List Block} (h : HeapInv m bs) (hgo : m.goesOn = true)
    {place size : RawArgument} (hi : current m = .halloc place size) {v : MemAddr}
    (hv : wordOf (size.type = .number) m size = some v) :
    ((∃ m', step m = .error (.throws .heapOverflow) m' ∧ m'.ram = m.ram) ↔
      ∀ b ∈ bs, b.owned = false → b.size < v.toNat) ∧
    ((∃ b ∈ bs, b.owned = false ∧ v.toNat ≤ b.size) →
      ∃ front b back m₁, bs = front ++ b :: back ∧
        (∀ c ∈ front, c.owned = false → c.size < v.toNat) ∧ b.owned = false ∧ v.toNat ≤ b.size ∧
        Carved m m₁ v.toNat front b back ∧
        step m = deliver place
          (m.proc.heapStart.toNat + span heapHeaderBlockSize front + heapHeaderBlockSize) m₁ ∧
        ∀ c, Denotes m₁ place c → Spares m₁ c → ∃ m', step m = .ok () m' ∧
          m'.proc.heapStart = m.proc.heapStart ∧
          HeapChain m' (front ++ (Blocks.carve heapHeaderBlockSize v.toNat b ++ back))) := by
  obtain ⟨codeSize, hl⟩ := h.loaded
  cases ha : allocate heapHeaderBlockSize v.toNat bs with
  | none =>
    have hnone := allocate_none ha
    refine ⟨iff_of_true ?_ fun b hb => not_serves.mp (hnone b hb), ?_⟩
    · have hv' := hv
      rw [← wordOf_fetched] at hv'
      obtain ⟨t, hword⟩ := wordOf_some.mp hv'
      obtain ⟨u, hu⟩ := halloc_raises place (h.congr (fetched_layout m) rfl) hword hnone
      refine ⟨recorded (fetched m) u, ?_, rfl⟩
      rw [Machine.step_fetched hl hgo, hi, complete]
      exact bind_error hu
    · rintro ⟨b, hb, hserves⟩
      exact absurd hserves (hnone b hb)
  | some bs' =>
    obtain ⟨front, b, back, rfl, hfront, hb, -⟩ := allocate_some ha
    obtain ⟨m₁, hcarved, hstep⟩ := halloc_carves h hgo hi hv hfront hb
    refine ⟨iff_of_false ?_ fun hsmall => ?_, fun _ => ⟨front, b, back, m₁, rfl,
      fun c hc => not_serves.mp (hfront c hc), hb.1, hb.2, hcarved, hstep, fun c hc hspares => ?_⟩⟩
    · rintro ⟨m', hraised, -⟩
      rw [hstep] at hraised
      exact deliver_raises hraised rfl
    · exact not_serves.mpr (hsmall b (by simp)) hb
    · obtain ⟨m', hrun, hinv, hlayout⟩ := deliver_spares hcarved.inv hc hspares
        (m.proc.heapStart.toNat + span heapHeaderBlockSize front + heapHeaderBlockSize)
      exact ⟨m', hstep.trans hrun, hlayout.heapStart.trans hcarved.layout.heapStart, hinv.toHeapChain⟩

/-- `HALLOC A, 16`, `HALLOC B, 16`, `HFREE A`, `HALLOC C, 20`. -/
def hallocGap : List MemCell :=
  [0, 2, 0xC2, 1, 1, 0, 16, 0xC2, 1, 2, 0, 16, 0xA1, 1, 1, 0xC2, 1, 3, 0, 20, 0xFF]

def gapMachine : Machine := .boot (freshVM hallocGap) (freshProcess hallocGap) ⟨[], false⟩ .null []

theorem hallocGap_loads : VM.fresh.load hallocGap = .ok (freshProcess hallocGap, freshVM hallocGap) :=
  load_fresh (by decide)

theorem gapMachine_inv : HeapInv gapMachine [⟨1000, false⟩] :=
  heapInv_load .fresh hallocGap_loads ⟨[], false⟩ .null []

/-- Two blocks are held. -/
def heldTwo : Machine := gapMachine.nextOr.nextOr

/-- Only the second is. -/
def gapped : Machine := heldTwo.nextOr

theorem heldTwo_run : HeapRun gapMachine heldTwo := by
  have hfirst : current gapMachine = .halloc ⟨.register, 1⟩ ⟨.number, 16⟩ := by decide
  have hsecond : current gapMachine.nextOr = .halloc ⟨.register, 2⟩ ⟨.number, 16⟩ := by decide +kernel
  have hone : HeapRun gapMachine gapMachine.nextOr :=
    (HeapRun.start _).halloc hfirst rfl (Machine.nextOr_ok (by decide +kernel))
  exact hone.halloc hsecond rfl (Machine.nextOr_ok (by decide +kernel))

theorem heldTwo_inv : HeapInv heldTwo [⟨16, true⟩, ⟨16, true⟩, ⟨962, false⟩] := by
  refine gapMachine_inv.row heldTwo_run ⟨⟨?_, ?_⟩, ⟨?_, ?_⟩, ⟨?_, ?_⟩, trivial⟩ (by decide)
  all_goals decide +kernel

/-- `A` is where the first block's payload is. -/
theorem heldTwo_frees : FreesOwned heldTwo ⟨.register, 1⟩ [] ⟨16, true⟩ [⟨16, true⟩, ⟨962, false⟩] :=
  freesOwned_of_word heldTwo_inv.toHeapChain rfl (v := 24) (by decide +kernel) (by decide +kernel)

theorem gapped_run : HeapRun gapMachine gapped :=
  heldTwo_run.hfree (by decide +kernel) heldTwo_frees (Machine.nextOr_ok (by decide +kernel))

/-- It lies between two gaps. -/
theorem gapped_inv : HeapInv gapped [⟨16, false⟩, ⟨16, true⟩, ⟨962, false⟩] := by
  refine gapMachine_inv.row gapped_run ⟨⟨?_, ?_⟩, ⟨?_, ?_⟩, ⟨?_, ?_⟩, trivial⟩ (by decide)
  all_goals decide +kernel

theorem gapped_current : current gapped = .halloc ⟨.register, 3⟩ ⟨.number, 20⟩ := by decide +kernel

/-- The first gap is too short for twenty bytes, which are carved behind the block held. -/
theorem gapped_carved (hrow : [⟨16, false⟩, ⟨16, true⟩, ⟨962, false⟩] = front ++ b :: back)
    (hfront : ∀ c ∈ front, ¬ Serves 20 c) (hb : Serves 20 b) :
    front ++ (Blocks.carve heapHeaderBlockSize 20 b ++ back) =
      [⟨16, false⟩, ⟨16, true⟩, ⟨20, true⟩, ⟨939, false⟩] := by
  have hcarved : allocate heapHeaderBlockSize 20 (front ++ b :: back) =
      some (front ++ (Blocks.carve heapHeaderBlockSize 20 b ++ back)) := allocate_append hfront hb
  rw [← hrow] at hcarved
  exact (Option.some.inj hcarved).symm

theorem halloc_first_fit_gapped : ∃ m', step gapped = .ok () m' ∧
    HeapChain m' [⟨16, false⟩, ⟨16, true⟩, ⟨20, true⟩, ⟨939, false⟩] := by
  obtain ⟨front, b, back, m₁, hrow, hfront, hfree, hsize, -, -, hdelivers⟩ :=
    (halloc_first_fit gapped_inv (by decide +kernel) gapped_current (v := 20) rfl).2
      ⟨⟨962, false⟩, by simp, rfl, by decide⟩
  obtain ⟨m', hstep, -, hchain⟩ := hdelivers (.register 2) ⟨rfl, trivial⟩ fun i hi => by cases hi
  have hcarved := gapped_carved hrow (fun c hc => not_serves.mpr (hfront c hc)) ⟨hfree, hsize⟩
  exact ⟨m', hstep, hcarved ▸ hchain⟩

/-! ### What freeing restores -/

/-- A successful `HALLOC` that carved `b`; its pointer went to no header byte. -/
structure Served (m m' : Machine) (front : List Block) (b : Block) (back : List Block) : Prop where
  halloc : ∃ place size, current m = .halloc place size ∧ m.next = .ok m'
  layout : m.proc.SameLayout m'.proc
  before : HeapChain m (front ++ b :: back)
  after : ∃ n, (∀ c ∈ front, ¬ Serves n c) ∧ Serves n b ∧
    HeapChain m' (front ++ (Blocks.carve heapHeaderBlockSize n b ++ back))

/-- A run by `HFREE` of owned blocks, with the addresses of their headers in the order
they are freed. In between, anything may happen that leaves the layout and the header
bytes alone. -/
inductive Frees : Machine → List Nat → Machine → Prop
  | start (m : Machine) : Frees m [] m
  | hfree {m m₁ m₂ : Machine} {ps : List Nat} {arg : RawArgument} {front back : List Block} {b : Block}
      (h : Frees m ps m₁) (hi : current m₁ = .hfree arg) (hfrees : FreesOwned m₁ arg front b back)
      (hnext : m₁.next = .ok m₂) :
      Frees m (ps ++ [m₁.proc.heapStart.toNat + span heapHeaderBlockSize front]) m₂
  | other {m m₁ m₂ : Machine} {ps : List Nat} (h : Frees m ps m₁)
      (hlayout : m₁.proc.SameLayout m₂.proc) (hram : ∀ i, HeaderByte m₁ i → m₂.ram i = m₁.ram i) :
      Frees m ps m₂

/-- The row from `m` on without the blocks at `ps`. -/
structure Without (m m' : Machine) (bs : List Block) (ps : List Nat) (bs' : List Block) : Prop where
  inv : HeapInv m' bs'
  layout : m.proc.SameLayout m'.proc
  owned : ∀ p c, (p, c) ∈ blocksAt m.proc.heapStart.toNat bs' ∧ c.owned = true ↔
    ((p, c) ∈ blocksAt m.proc.heapStart.toNat bs ∧ c.owned = true) ∧ p ∉ ps

/-- Frees take their blocks out of the owned ones. -/
theorem Frees.without {ps : List Nat} (hfrees : Frees m ps m') (h : HeapInv m bs) :
    ∃ bs', Without m m' bs ps bs' := by
  have hhdr : 0 < heapHeaderBlockSize := by decide
  induction hfrees with
  | start => exact ⟨bs, h, .refl _, fun p c => by simp⟩
  | @hfree m₁ m₂ ps arg front back b _ hi hfrees hnext ih =>
    obtain ⟨bs', hwithout⟩ := ih
    obtain rfl := hwithout.inv.toHeapChain.unique hfrees.chain
    obtain ⟨_, hnext', hfreed⟩ := hfree_next hwithout.inv (Machine.next_ok hnext).1 hi hfrees
    rw [hnext] at hnext'
    cases hnext'
    refine ⟨_, hfreed.inv, hwithout.layout.trans hfreed.layout, fun p c => ?_⟩
    rw [owned_freed hhdr, hwithout.owned, List.mem_append, List.mem_singleton, hwithout.layout.heapStart,
      and_assoc, not_or]
  | other _ hlayout hram ih =>
    obtain ⟨bs', hinv, hsame, howned⟩ := ih
    obtain ⟨size, hl⟩ := hinv.loaded
    refine ⟨bs', ⟨⟨⟨size, hlayout.loaded hl⟩, ?_, hinv.total⟩, hinv.separated, hinv.ends⟩,
      hsame.trans hlayout, howned⟩
    rw [hlayout.heapStart]
    exact hinv.chain.congr fun p b hb i hi hi' => hram i ⟨bs', p, b, hinv.toHeapChain, hb, hi, hi'⟩

/-- Two rows of one heap with the same owned blocks are the same. -/
theorem HeapInv.eq_of_owned {cs : List Block} {a : Nat} (hb : HeapInv m bs) (hc : HeapInv m' cs)
    (h : ∀ p c, (p, c) ∈ blocksAt a bs ∧ c.owned = true ↔ (p, c) ∈ blocksAt a cs ∧ c.owned = true) :
    bs = cs := by
  refine SameOwned.eq (o := a) (by decide) (fun p c howned => ?_) (hb.total.trans hc.total.symm)
    hb.separated hc.separated
  have := h p c
  simpa only [howned, and_true] using this

/-- `HFREE` of the block that `HALLOC` returned restores the row. -/
theorem Served.undone {m m₁ m₂ : Machine} {bs front back : List Block} {b : Block} (h : HeapInv m bs)
    (hserved : Served m m₁ front b back)
    (hfrees : Frees m₁ [m.proc.heapStart.toNat + span heapHeaderBlockSize front] m₂) :
    m₂.proc.heapStart = m.proc.heapStart ∧ HeapChain m₂ bs := by
  obtain rfl := h.toHeapChain.unique hserved.before
  obtain ⟨n, hfront, hb, hchain⟩ := hserved.after
  have hallocated : allocate heapHeaderBlockSize n (front ++ b :: back) =
      some (front ++ (Blocks.carve heapHeaderBlockSize n b ++ back)) := allocate_append hfront hb
  have hinv : HeapInv m₁ (front ++ (Blocks.carve heapHeaderBlockSize n b ++ back)) :=
    ⟨hchain, separated_allocate hallocated h.separated, ends_allocate hallocated h.ends⟩
  obtain ⟨bs', hwithout⟩ := hfrees.without hinv
  refine ⟨hwithout.layout.heapStart.trans hserved.layout.heapStart, ?_⟩
  suffices heq : bs' = front ++ b :: back by
    rw [← heq]
    exact hwithout.inv.toHeapChain
  refine hwithout.inv.eq_of_owned h (a := m.proc.heapStart.toNat) fun p c => ?_
  have howned := hwithout.owned p c
  rw [hserved.layout.heapStart, owned_allocate hb.1, List.mem_singleton] at howned
  rw [howned]
  constructor
  · rintro ⟨hold | ⟨hp, -⟩, hne⟩
    · exact hold
    · exact absurd hp hne
  · -- an owned block of the row as it was is not the one that was handed out
    rintro ⟨hold, hc⟩
    refine ⟨.inl ⟨hold, hc⟩, fun hp => ?_⟩
    have hplace : (m.proc.heapStart.toNat + span heapHeaderBlockSize front, b) ∈
        blocksAt m.proc.heapStart.toNat (front ++ b :: back) := mem_placed.mpr ⟨front, back, rfl, rfl⟩
    rcases placed_apart hold hplace with heq | hlt | hlt
    · rw [(Prod.mk.inj heq).2, hb.1] at hc
      cases hc
    · have hblock : heapHeaderBlockSize = 3 := rfl
      omega
    · have hblock : heapHeaderBlockSize = 3 := rfl
      omega

/-- **`HFREE` undoes `HALLOC` and coalesces completely.** From every state of a run by the
two, `HFREE` of the block a `HALLOC` carved restores the row; owned blocks lead to one
row in whichever order they are freed; and when all are, to the single free block. -/
theorem hfree_exact {vm vm' : VM} {procs : List Process} {bytecode : List MemCell} {p : Process}
    (hs : Session vm procs) (hload : vm.load bytecode = .ok (p, vm')) (cin : Stdin) (handle : Window)
    (events : List WindowEvent) {m : Machine} (hrun : HeapRun (.boot vm' p cin handle events) m) :
    ∃ bs, HeapChain m bs ∧
      (∀ place size m₁, current m = .halloc place size → place.type = .register → m.next = .ok m₁ →
        ∃ front b back, Served m m₁ front b back) ∧
      (∀ front b back m₁ m₂, Served m m₁ front b back →
        Frees m₁ [m.proc.heapStart.toNat + span heapHeaderBlockSize front] m₂ →
        m₂.proc.heapStart = m.proc.heapStart ∧ HeapChain m₂ bs) ∧
      (∀ ps m₁ arg front b back, Frees m ps m₁ → m₁.goesOn = true → current m₁ = .hfree arg →
        FreesOwned m₁ arg front b back → ∃ m₂, m₁.next = .ok m₂) ∧
      (∀ ps qs m₁ m₂, Frees m ps m₁ → Frees m qs m₂ → ps.Perm qs →
        m₁.proc.heapStart = m₂.proc.heapStart ∧ ∃ cs, HeapChain m₁ cs ∧ HeapChain m₂ cs) ∧
      ∀ ps m₁, Frees m ps m₁ →
        (∀ q c, (q, c) ∈ blocksAt m.proc.heapStart.toNat bs → c.owned = true → q ∈ ps) →
        m₁.proc.heapStart = m.proc.heapStart ∧ HeapChain m₁ [⟨1000, false⟩] := by
  obtain ⟨bs, h⟩ := heapRun_inv hrun (heapInv_load hs hload cin handle events)
  refine ⟨bs, h.toHeapChain, fun place size m₁ hi hplace hnext => ?_, fun front b back m₁ m₂ hserved hfrees => ?_,
    fun ps m₁ arg front b back hfrees hgo hi howned => ?_, fun ps qs m₁ m₂ hps hqs hperm => ?_,
    fun ps m₁ hfrees hall => ?_⟩
  · obtain ⟨v, front, b, back, rfl, halloc⟩ := halloc_next h hi hplace hnext
    exact ⟨front, b, back, ⟨place, size, hi, hnext⟩, halloc.layout, h.toHeapChain, v.toNat, halloc.first,
      halloc.serves, halloc.inv.toHeapChain⟩
  · exact hserved.undone h hfrees
  · obtain ⟨bs', hwithout⟩ := hfrees.without h
    obtain rfl := hwithout.inv.toHeapChain.unique howned.chain
    obtain ⟨m₂, hnext, -⟩ := hfree_next hwithout.inv hgo hi howned
    exact ⟨m₂, hnext⟩
  · obtain ⟨cs, hcs⟩ := hps.without h
    obtain ⟨ds, hds⟩ := hqs.without h
    refine ⟨hcs.layout.heapStart.trans hds.layout.heapStart.symm, cs, hcs.inv.toHeapChain, ?_⟩
    have heq : cs = ds := hcs.inv.eq_of_owned hds.inv (a := m.proc.heapStart.toNat) fun q c => by
      rw [hcs.owned, hds.owned, hperm.mem_iff]
    rw [heq]
    exact hds.inv.toHeapChain
  · obtain ⟨cs, hcs⟩ := hfrees.without h
    refine ⟨hcs.layout.heapStart, ?_⟩
    have heq : cs = [⟨1000, false⟩] := by
      refine SameOwned.eq (o := m.proc.heapStart.toNat) (by decide) (fun q c hc => ?_) hcs.inv.total
        hcs.inv.separated
        (List.isChain_singleton _)
      refine iff_of_false (fun hmem => ?_) fun hmem => ?_
      · obtain ⟨⟨hold, -⟩, hnot⟩ := (hcs.owned q c).mp ⟨hmem, hc⟩
        exact hnot (hall q c hold hc)
      · obtain rfl := (Prod.mk.inj (List.mem_singleton.mp hmem)).2
        cases hc
    rw [← heq]
    exact hcs.inv.toHeapChain

/-- `HALLOC A, 16`, `HFREE A`. -/
def hallocHfree : List MemCell := [0, 2, 0xC2, 1, 1, 0, 16, 0xA1, 1, 1, 0xFF]

def hallocHfreeMachine : Machine :=
  .boot (freshVM hallocHfree) (freshProcess hallocHfree) ⟨[], false⟩ .null []

theorem hallocHfree_loads :
    VM.fresh.load hallocHfree = .ok (freshProcess hallocHfree, freshVM hallocHfree) :=
  load_fresh (by decide)

theorem hallocHfree_inv : HeapInv hallocHfreeMachine [⟨1000, false⟩] :=
  heapInv_load .fresh hallocHfree_loads ⟨[], false⟩ .null []

theorem hallocHfree_current : current hallocHfreeMachine = .halloc ⟨.register, 1⟩ ⟨.number, 16⟩ := by decide

theorem hallocHfree_next : hallocHfreeMachine.next = .ok hallocHfreeMachine.nextOr :=
  Machine.nextOr_ok (by decide +kernel)

theorem hallocHfree_run : HeapRun hallocHfreeMachine hallocHfreeMachine.nextOr :=
  (HeapRun.start _).halloc hallocHfree_current rfl hallocHfree_next

theorem hallocHfree_held : HeapInv hallocHfreeMachine.nextOr [⟨16, true⟩, ⟨981, false⟩] := by
  refine hallocHfree_inv.row hallocHfree_run ⟨⟨?_, ?_⟩, ⟨?_, ?_⟩, trivial⟩ (by decide)
  all_goals decide +kernel

theorem hallocHfree_frees :
    FreesOwned hallocHfreeMachine.nextOr ⟨.register, 1⟩ [] ⟨16, true⟩ [⟨981, false⟩] :=
  freesOwned_of_word hallocHfree_held.toHeapChain rfl (v := 14) (by decide +kernel) (by decide +kernel)

/-- The block is handed out and freed again, and the heap is as it was loaded. -/
theorem hfree_exact_sixteen : ∃ m₁ m₂, hallocHfreeMachine.next = .ok m₁ ∧
    HeapChain m₁ [⟨16, true⟩, ⟨981, false⟩] ∧ m₁.next = .ok m₂ ∧ HeapChain m₂ [⟨1000, false⟩] := by
  have hsecond : current hallocHfreeMachine.nextOr = .hfree ⟨.register, 1⟩ := by decide +kernel
  obtain ⟨bs, hchain, hserves, hundone, -⟩ := hfree_exact .fresh hallocHfree_loads ⟨[], false⟩ .null [] (.start _)
  obtain rfl := hchain.unique hallocHfree_inv.toHeapChain
  obtain ⟨front, b, back, hserved⟩ := hserves _ _ _ hallocHfree_current rfl hallocHfree_next
  obtain rfl : front = [] := by
    have hlength := congrArg List.length (hserved.before.unique hallocHfree_inv.toHeapChain)
    rw [List.length_append, List.length_cons, List.length_singleton] at hlength
    exact List.length_eq_zero_iff.mp (by omega)
  obtain ⟨-, -, -, -, hcompletes, -⟩ :=
    hfree_exact .fresh hallocHfree_loads ⟨[], false⟩ .null [] hallocHfree_run
  obtain ⟨m₂, hnext⟩ := hcompletes [] _ _ _ _ _ (.start _) (by decide +kernel) hsecond hallocHfree_frees
  rw [← hserved.layout.heapStart] at hundone
  have hrestored := (hundone [] b back _ m₂ hserved (.hfree (.start _) hsecond hallocHfree_frees hnext)).2
  exact ⟨_, m₂, hallocHfree_next, hallocHfree_held.toHeapChain, hnext, hrestored⟩

end CustomIsaVm
