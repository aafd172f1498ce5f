import CustomIsaVm.Machine.Heap

/-! Runs of the heap instructions.

In every run by `HALLOC` and `HFREE`, whatever else happens to the payloads, the row
of blocks tiles the heap and has no free neighbours (`heap_chain`). The row is one
header longer than the heap: its last three cells are the first of the stack window
(`heap_overlaps_stack`). And what `HALLOC` delivers is the low byte of an absolute
address, which `[r]` takes as an offset and `HFREE r` as an absolute address again:
the three meet only in a segment at address 0 and below address 256
(`halloc_pointer`). -/
namespace CustomIsaVm

open Effect Exec Blocks

/-! ### Steps -/

/-- The heap at the start of a turn and after the fetch is one heap. -/
theorem HeapInv.congr {m m' : Machine} {bs : List Block} (h : HeapInv m bs)
    (hlayout : m.proc.SameLayout m'.proc) (hram : m'.ram = m.ram) : HeapInv m' bs := by
  obtain ⟨size, hl⟩ := h.loaded
  refine ⟨⟨⟨size, hlayout.loaded hl⟩, ?_, h.total⟩, h.separated, h.ends⟩
  rw [hram, hlayout.heapStart]
  exact h.chain

/-- The payload at `p` is as it was. -/
def SamePayload (m m' : Machine) (p : Nat) (b : Block) : Prop :=
  ∀ i, p + heapHeaderBlockSize ≤ i → i < p + heapHeaderBlockSize + b.size → m'.ram i = m.ram i

/-- A successful `HALLOC` into a register: the block it carved out of the row, and what
it delivered. -/
structure Allocated (m m' : Machine) (place size : RawArgument) (v : MemAddr) (front : List Block)
    (b : Block) (back : List Block) : Prop where
  request : ∃ t, wordValue (size.type = .number) size (fetched m) = .ok v (recorded (fetched m) t)
  first : ∀ c ∈ front, ¬ Serves v.toNat c
  serves : Serves v.toNat b
  inv : HeapInv m' (front ++ (Blocks.carve heapHeaderBlockSize v.toNat b ++ back))
  layout : m.proc.SameLayout m'.proc
  delivered : ∃ r, registerOf place.value = some r ∧ m'.registers = Function.update m.registers r
    (lowByte (m.proc.heapStart.toNat + span heapHeaderBlockSize front + heapHeaderBlockSize))
  kept : ∀ i, ¬ (m.proc.heapStart.toNat + span heapHeaderBlockSize front ≤ i ∧
    i < m.proc.heapStart.toNat + span heapHeaderBlockSize front + heapHeaderBlockSize + b.size) →
    m'.ram i = m.ram i

theorem halloc_next {m m' : Machine} {bs : List Block} {place size : RawArgument} (h : HeapInv m bs)
    (hi : current m = .halloc place size) (hplace : place.type = .register) (hnext : m.next = .ok m') :
    ∃ v front b back, bs = front ++ b :: back ∧ Allocated m m' place size v front b back := by
  obtain ⟨codeSize, hl⟩ := h.loaded
  have hf : HeapInv (fetched m) bs := h.congr (fetched_layout m) rfl
  obtain ⟨m₁, hm₁, rfl⟩ := Machine.next_perform hl hnext
  rw [hi] at hm₁
  obtain ⟨v, _, hv, _⟩ := bind_eq_ok.mp (show (halloc place size) (fetched m) = .ok () m₁ from hm₁)
  obtain ⟨t, rfl⟩ := (records_wordValue _ size).ok hv
  cases ha : allocate heapHeaderBlockSize v.toNat bs with
  | none =>
    obtain ⟨_, hraise⟩ := halloc_raises place hf hv (allocate_none ha)
    rw [show perform (.halloc place size) (fetched m) = _ from hraise] at hm₁
    cases hm₁
  | some bs' =>
    obtain ⟨front, b, back, rfl, hfront, hb, rfl⟩ := allocate_some ha
    obtain ⟨u, ram, hrun, hchain, hout⟩ := halloc_serves place hf hv hfront hb
    rw [show perform (.halloc place size) (fetched m) = _ from hrun] at hm₁
    obtain ⟨c, m₂, hc, hw⟩ := bind_eq_ok.mp hm₁
    rw [hplace] at hc
    obtain ⟨r, m₃, hr, hpure⟩ := bind_eq_ok.mp hc
    obtain ⟨hreg, rfl⟩ := registerIndex_ok hr
    cases hpure
    cases hw
    refine ⟨v, front, b, back, rfl, ⟨t, hv⟩, hfront, hb, ⟨⟨⟨codeSize, ?_⟩, hchain, ?_⟩, ?_, ?_⟩,
      ⟨rfl, rfl, rfl, rfl, rfl, rfl, rfl, rfl⟩, ⟨r, hreg, rfl⟩, hout⟩
    · exact ⟨hl.1, hl.2, hl.3, hl.4, hl.5, hl.6⟩
    · rw [span_allocate ha]
      exact h.total
    · exact separated_allocate ha h.separated
    · exact ends_allocate ha h.ends

/-- `HALLOC` into a register completes where a block can serve. -/
theorem halloc_completes {m : Machine} {front back : List Block} {b : Block} {place size : RawArgument}
    {r : Fin 5} {v : MemAddr} {t : List Access} (h : HeapInv m (front ++ b :: back))
    (hgo : m.goesOn = true) (hi : current m = .halloc place size) (hplace : place.type = .register)
    (hr : registerOf place.value = some r)
    (hv : wordValue (size.type = .number) size (fetched m) = .ok v (recorded (fetched m) t))
    (hfront : ∀ c ∈ front, ¬ Serves v.toNat c) (hb : Serves v.toNat b) : ∃ m', m.next = .ok m' := by
  obtain ⟨codeSize, hl⟩ := h.loaded
  have hf : HeapInv (fetched m) (front ++ b :: back) := h.congr (fetched_layout m) rfl
  obtain ⟨u, ram, hrun, _, _⟩ := halloc_serves place hf hv hfront hb
  rw [hplace, resolveWriteableArg, bind_assoc, bind_ok (registerIndex_run hr)] at hrun
  exact ⟨_, Machine.next_ok_of_perform hl hgo (by rw [hi]; exact hrun)⟩

/-- The other owned blocks are where they were, with their payloads. -/
theorem Allocated.owned {m m' : Machine} {place size : RawArgument} {v : MemAddr}
    {front back : List Block} {b : Block} (h : Allocated m m' place size v front b back) {p : Nat} {c : Block}
    (hc : (p, c) ∈ blocksAt m.proc.heapStart.toNat (front ++ b :: back)) (howned : c.owned = true)
    {bs : List Block} (hbs : HeapChain m' bs) :
    (p, c) ∈ blocksAt m'.proc.heapStart.toNat bs ∧ SamePayload m m' p c := by
  have hb := h.serves.1
  obtain rfl := hbs.unique h.inv.toHeapChain
  refine ⟨?_, fun i hi hi' => h.kept i fun hin => ?_⟩
  · rw [h.layout.heapStart]
    exact ((owned_allocate hb).mpr (.inl ⟨hc, howned⟩)).1
  · have hplace : (m.proc.heapStart.toNat + span heapHeaderBlockSize front, b) ∈
        blocksAt m.proc.heapStart.toNat (front ++ b :: back) := mem_placed.mpr ⟨front, back, rfl, rfl⟩
    rcases placed_apart hc hplace with heq | hlt | hlt
    · cases heq
      rw [hb] at howned
      cases howned
    · omega
    · omega

/-- The operand of `HFREE` is the address of the payload of an owned block. -/
structure FreesOwned (m : Machine) (arg : RawArgument) (front : List Block) (b : Block)
    (back : List Block) : Prop where
  chain : HeapChain m (front ++ b :: back)
  owned : b.owned = true
  operand : ∃ v t, wordValue (arg.type = .address) arg (fetched m) = .ok v (recorded (fetched m) t) ∧
    v.toNat = m.proc.heapStart.toNat + span heapHeaderBlockSize front + heapHeaderBlockSize

/-- `HFREE` of an owned block completes: the block is freed and the row coalesced. -/
structure Freed (m m' : Machine) (front : List Block) (b : Block) (back : List Block) : Prop where
  inv : HeapInv m' (Blocks.coalesce heapHeaderBlockSize (front ++ ⟨b.size, false⟩ :: back))
  layout : m.proc.SameLayout m'.proc
  registers : m'.registers = m.registers
  kept : ∀ i, m'.ram i ≠ m.ram i → ∃ p c,
    (p, c) ∈ blocksAt m.proc.heapStart.toNat (front ++ ⟨b.size, false⟩ :: back) ∧
    c.owned = false ∧ p ≤ i ∧ i < p + heapHeaderBlockSize

theorem hfree_next {m : Machine} {arg : RawArgument} {front back : List Block} {b : Block}
    (h : HeapInv m (front ++ b :: back)) (hgo : m.goesOn = true) (hi : current m = .hfree arg)
    (hfrees : FreesOwned m arg front b back) : ∃ m', m.next = .ok m' ∧ Freed m m' front b back := by
  obtain ⟨codeSize, hl⟩ := h.loaded
  have hf : HeapInv (fetched m) (front ++ b :: back) := h.congr (fetched_layout m) rfl
  obtain ⟨v, t, hv, hp⟩ := hfrees.operand
  obtain ⟨u, ram, hrun, hchain, hout⟩ := hfree_run hf hv hp hfrees.owned
  have hperform : perform (current m) (fetched m) = .ok () (recorded (withRam (fetched m) ram) u) := by
    rw [hi]
    exact hrun
  refine ⟨_, Machine.next_ok_of_perform hl hgo hperform, ⟨⟨⟨⟨codeSize, ?_⟩, hchain, ?_⟩,
    separated_coalesce _, ends_coalesce (ends_status h.ends rfl)⟩,
    ⟨rfl, rfl, rfl, rfl, rfl, rfl, rfl, rfl⟩, rfl, hout⟩⟩
  · exact ⟨hl.1, hl.2, hl.3, hl.4, hl.5, hl.6⟩
  · rw [span_coalesce, ← h.total]
    simp

theorem Freed.owned {m m' : Machine} {front back : List Block} {b : Block} (h : Freed m m' front b back)
    {p : Nat} {c : Block} (hc : (p, c) ∈ blocksAt m.proc.heapStart.toNat (front ++ b :: back))
    (howned : c.owned = true) (hne : p ≠ m.proc.heapStart.toNat + span heapHeaderBlockSize front)
    {bs : List Block} (hbs : HeapChain m' bs) :
    (p, c) ∈ blocksAt m'.proc.heapStart.toNat bs ∧ SamePayload m m' p c := by
  obtain rfl := hbs.unique h.inv.toHeapChain
  have hmem : (p, c) ∈ blocksAt m.proc.heapStart.toNat (front ++ ⟨b.size, false⟩ :: back) := by
    simp only [blocksAt, placed_append, placed_cons, List.mem_append, List.mem_cons, Prod.mk.injEq]
      at hc ⊢
    rcases hc with hc | ⟨hp, _⟩ | hc
    · exact .inl hc
    · exact absurd hp hne
    · exact .inr (.inr hc)
  refine ⟨?_, fun i hi hi' => by_contra fun hchange => ?_⟩
  · rw [h.layout.heapStart]
    exact (owned_coalesce.mpr ⟨hmem, howned⟩).1
  · obtain ⟨q, d, hd, hfree, hq, hq'⟩ := h.kept i hchange
    rcases placed_apart hmem hd with heq | hlt | hlt
    · cases heq
      rw [howned] at hfree
      cases hfree
    · omega
    · omega

/-! ### Runs -/

/-- A byte of a header of the row. -/
def HeaderByte (m : Machine) (i : Nat) : Prop :=
  ∃ bs p b, HeapChain m bs ∧ (p, b) ∈ blocksAt m.proc.heapStart.toNat bs ∧
    p ≤ i ∧ i < p + heapHeaderBlockSize

/-- A run by `HALLOC` into registers and by `HFREE` of owned blocks. In between,
anything may happen that leaves the layout and the header bytes alone. -/
inductive HeapRun : Machine → Machine → Prop
  | start (m : Machine) : HeapRun m m
  | halloc {m m₁ m₂ : Machine} {place size : RawArgument} (h : HeapRun m m₁)
      (hi : current m₁ = .halloc place size) (hplace : place.type = .register)
      (hnext : m₁.next = .ok m₂) : HeapRun m m₂
  | hfree {m m₁ m₂ : Machine} {arg : RawArgument} {front back : List Block} {b : Block}
      (h : HeapRun m m₁) (hi : current m₁ = .hfree arg) (hfrees : FreesOwned m₁ arg front b back)
      (hnext : m₁.next = .ok m₂) : HeapRun m m₂
  | other {m m₁ m₂ : Machine} (h : HeapRun m m₁) (hlayout : m₁.proc.SameLayout m₂.proc)
      (hram : ∀ i, HeaderByte m₁ i → m₂.ram i = m₁.ram i) : HeapRun m m₂

/-- A run keeps the invariant. -/
theorem heapRun_inv {m m' : Machine} {bs : List Block} (hrun : HeapRun m m') (h : HeapInv m bs) :
    ∃ bs', HeapInv m' bs' := by
  induction hrun with
  | start => exact ⟨bs, h⟩
  | halloc _ hi hplace hnext ih =>
    obtain ⟨bs', hinv⟩ := ih
    obtain ⟨_, _, _, _, _, halloc⟩ := halloc_next hinv hi hplace hnext
    exact ⟨_, halloc.inv⟩
  | hfree _ hi hfrees hnext ih =>
    obtain ⟨bs', hinv⟩ := ih
    obtain rfl := hinv.toHeapChain.unique hfrees.chain
    obtain ⟨_, hnext', hfreed⟩ := hfree_next hinv (Machine.next_ok hnext).1 hi hfrees
    rw [hnext] at hnext'
    cases hnext'
    exact ⟨_, hfreed.inv⟩
  | other _ hlayout hram ih =>
    obtain ⟨bs', hinv⟩ := ih
    obtain ⟨size, hl⟩ := hinv.loaded
    refine ⟨bs', ⟨⟨⟨size, hlayout.loaded hl⟩, ?_, hinv.total⟩, hinv.separated, hinv.ends⟩⟩
    rw [hlayout.heapStart]
    exact hinv.chain.congr fun p b hb i hi hi' => hram i ⟨bs', p, b, hinv.toHeapChain, hb, hi, hi'⟩

/-- The row at a point of a run is the one that its headers spell. -/
theorem HeapInv.row {m m' : Machine} {bs bs' : List Block} (h : HeapInv m bs) (hrun : HeapRun m m')
    (hchain : ChainAt m'.ram m'.proc.heapStart.toNat bs')
    (htotal : span heapHeaderBlockSize bs' = VMconf.programHeapStartingSizeBytes + heapHeaderBlockSize) :
    HeapInv m' bs' := by
  obtain ⟨cs, hinv⟩ := heapRun_inv hrun h
  obtain rfl := hinv.chain.unique hchain (hinv.total.trans htotal.symm)
  exact hinv

/-! ### The chain -/

/-- What holds of the heap at a point of a run. -/
structure HeapLaw (m : Machine) (bs : List Block) : Prop where
  /-- The headers lead through `bs` to exactly one header past the limit. -/
  chain : HeapChain m bs
  headers : ∀ p b, (p, b) ∈ blocksAt m.proc.heapStart.toNat bs → p < m.proc.heapLimit.toNat ∧
    (m.ram (p + 2) = HeapReg.free.toByte ∨ m.ram (p + 2) = HeapReg.owned.toByte)
  separated : Separated bs
  halloc : ∀ place size m', current m = .halloc place size → place.type = .register →
    m.next = .ok m' → ∃ front b back, bs = front ++ b :: back ∧ b.owned = false ∧
      ∃ bs', HeapChain m' bs' ∧ ∀ p c, (p, c) ∈ blocksAt m.proc.heapStart.toNat bs → c.owned = true →
        (p, c) ∈ blocksAt m'.proc.heapStart.toNat bs' ∧ SamePayload m m' p c
  hfree : ∀ arg front b back m', current m = .hfree arg → FreesOwned m arg front b back →
    m.next = .ok m' → ∃ bs', HeapChain m' bs' ∧
      ∀ p c, (p, c) ∈ blocksAt m.proc.heapStart.toNat bs → c.owned = true →
        p ≠ m.proc.heapStart.toNat + span heapHeaderBlockSize front →
        (p, c) ∈ blocksAt m'.proc.heapStart.toNat bs' ∧ SamePayload m m' p c

/-- The status byte of a block of the row. -/
theorem ChainAt.status {ram : Nat → MemCell} {a p : Nat} {bs : List Block} {b : Block}
    (h : ChainAt ram a bs) (hb : (p, b) ∈ blocksAt a bs) : ram (p + 2) = statusByte b := by
  obtain ⟨front, back, rfl, rfl⟩ := mem_placed.mp hb
  exact (chainAt_append.mp h).2.1.2

theorem heapLaw {m : Machine} {bs : List Block} (h : HeapInv m bs) : HeapLaw m bs where
  chain := h.toHeapChain
  headers p b hb := by
    have hlt := placed_lt h.ends hb
    have hend := h.bounds.2.2.1
    have hblock : heapHeaderBlockSize = 3 := rfl
    refine ⟨by omega, ?_⟩
    rw [h.chain.status hb, statusByte]
    cases b.owned
    · exact .inl rfl
    · exact .inr rfl
  separated := h.separated
  halloc place size m' hi hplace hnext := by
    obtain ⟨v, front, b, back, rfl, halloc⟩ := halloc_next h hi hplace hnext
    exact ⟨front, b, back, rfl, halloc.serves.1, _, halloc.inv.toHeapChain, fun p c hc howned =>
      halloc.owned hc howned halloc.inv.toHeapChain⟩
  hfree arg front b back m' hi hfrees hnext := by
    obtain rfl := h.toHeapChain.unique hfrees.chain
    obtain ⟨_, hnext', hfreed⟩ := hfree_next h (Machine.next_ok hnext).1 hi hfrees
    rw [hnext] at hnext'
    cases hnext'
    exact ⟨_, hfreed.inv.toHeapChain, fun p c hc howned hne =>
      hfreed.owned hc howned hne hfreed.inv.toHeapChain⟩

/-- **The heap chain stays whole.** In every run by `HALLOC` and `HFREE` on a loaded
process the headers tile the heap up to one header past its limit, each starts below
the limit with a status that is one, no two free blocks are neighbours, and the next
instruction leaves the other owned blocks and their payloads as they are. -/
theorem heap_chain {vm vm' : VM} {procs : List Process} {bytecode : List MemCell} {p : Process}
    (hs : Session vm procs) (hload : vm.load bytecode = .ok (p, vm')) (cin : Stdin) (handle : Window)
    (events : List WindowEvent) {m : Machine} (hrun : HeapRun (.boot vm' p cin handle events) m) :
    ∃ bs, HeapLaw m bs := by
  obtain ⟨bs, h⟩ := heapRun_inv hrun (heapInv_load hs hload cin handle events)
  exact ⟨bs, heapLaw h⟩

/-- `HALLOC A, 16` at address 2. -/
def hallocSixteen : List MemCell := [0, 2, 0xC2, 1, 1, 0, 16, 0xFF]

/-- A fresh VM about to run it. -/
def hallocMachine : Machine :=
  .boot (freshVM hallocSixteen) (freshProcess hallocSixteen) ⟨[], false⟩ .null []

theorem hallocSixteen_loads :
    VM.fresh.load hallocSixteen = .ok (freshProcess hallocSixteen, freshVM hallocSixteen) :=
  load_fresh (by decide)

theorem hallocMachine_current :
    current hallocMachine = .halloc ⟨.register, 1⟩ ⟨.number, 16⟩ := by decide

theorem hallocMachine_inv : HeapInv hallocMachine [⟨1000, false⟩] :=
  heapInv_load .fresh hallocSixteen_loads ⟨[], false⟩ .null []

theorem hallocMachine_next : ∃ m, hallocMachine.next = .ok m :=
  halloc_completes (show HeapInv hallocMachine ([] ++ [⟨1000, false⟩]) from hallocMachine_inv) (by decide)
    hallocMachine_current rfl rfl (v := 16) (t := (fetched hallocMachine).touched) rfl (by simp) (by decide)

theorem heap_chain_sixteen : ∃ m, HeapRun hallocMachine m ∧ ∃ bs, HeapLaw m bs := by
  obtain ⟨m, hnext⟩ := hallocMachine_next
  have hrun := (HeapRun.start hallocMachine).halloc hallocMachine_current rfl hnext
  exact ⟨m, hrun, heap_chain .fresh hallocSixteen_loads ⟨[], false⟩ .null [] hrun⟩

/-! ### The end of the heap -/

/-- Every block lies between `heap_start` and `heap_limit`. -/
def HeapWithin (m : Machine) : Prop :=
  ∀ bs, HeapChain m bs → ∀ p b, (p, b) ∈ blocksAt m.proc.heapStart.toNat bs →
    m.proc.heapStart.toNat ≤ p ∧ p + heapHeaderBlockSize + b.size ≤ m.proc.heapLimit.toNat

/-- Some block has a byte in the stack window. -/
def HeapOnStack (m : Machine) : Prop :=
  ∃ bs, HeapChain m bs ∧ ∃ p b, (p, b) ∈ blocksAt m.proc.heapStart.toNat bs ∧
    ∃ i, p ≤ i ∧ i < p + heapHeaderBlockSize + b.size ∧ m.proc.stackLimit.toNat ≤ i ∧ i < m.proc.top

/-- The last block has the last cell of the row, which is past the limit. -/
theorem HeapInv.overlaps {m : Machine} {bs : List Block} (h : HeapInv m bs) :
    ¬ HeapWithin m ∧ HeapOnStack m := by
  have hblock : heapHeaderBlockSize = 3 := rfl
  obtain ⟨size, hl⟩ := h.loaded
  have htop := hl.top
  have hstack := hl.stackLimit
  have hlimit := hl.heapLimit
  have hend := h.bounds.2.2.1
  obtain ⟨b, hb⟩ : ∃ b, bs.getLast? = some b := by
    cases hlast : bs.getLast? with
    | some b => exact ⟨b, rfl⟩
    | none =>
      rw [List.getLast?_eq_none_iff] at hlast
      exact absurd h.total (by rw [hlast]; decide)
  obtain ⟨front, rfl⟩ := List.getLast?_eq_some_iff.mp hb
  have hmem : (m.proc.heapStart.toNat + span heapHeaderBlockSize front, b) ∈
      blocksAt m.proc.heapStart.toNat (front ++ [b]) := mem_placed.mpr ⟨front, [], rfl, rfl⟩
  rw [span_append, span_cons, span_nil] at hend
  refine ⟨fun hin => ?_, _, h.toHeapChain, _, b, hmem, m.proc.stackLimit.toNat + 2, ?_, ?_, ?_, ?_⟩
  · have := (hin _ h.toHeapChain _ b hmem).2
    omega
  all_goals omega

/-- **The heap always reaches into the stack window.** The loader gives the first block
the whole heap as payload, and its header comes on top: at every point of every run
the last block ends three cells past `heap_limit`, where the stack window starts. -/
theorem heap_overlaps_stack {vm vm' : VM} {procs : List Process} {bytecode : List MemCell} {p : Process}
    (hs : Session vm procs) (hload : vm.load bytecode = .ok (p, vm')) (cin : Stdin) (handle : Window)
    (events : List WindowEvent) {m : Machine} (hrun : HeapRun (.boot vm' p cin handle events) m) :
    ¬ HeapWithin m ∧ HeapOnStack m := by
  obtain ⟨bs, h⟩ := heapRun_inv hrun (heapInv_load hs hload cin handle events)
  exact h.overlaps

theorem heap_overlaps_stack_sixteen : ∃ m, HeapRun hallocMachine m ∧ ¬ HeapWithin m ∧ HeapOnStack m := by
  obtain ⟨m, hnext⟩ := hallocMachine_next
  have hrun := (HeapRun.start hallocMachine).halloc hallocMachine_current rfl hnext
  exact ⟨m, hrun, heap_overlaps_stack .fresh hallocSixteen_loads ⟨[], false⟩ .null [] hrun⟩

/-- After `HALLOC A, 16` on a fresh VM the free block behind the 16 bytes ends in the
stack window. -/
theorem heap_not_within : ∃ m, hallocMachine.next = .ok m ∧ HeapOnStack m ∧ ¬ HeapWithin m := by
  obtain ⟨m, hnext⟩ := hallocMachine_next
  obtain ⟨_, _, _, _, _, halloc⟩ := halloc_next hallocMachine_inv hallocMachine_current rfl hnext
  exact ⟨m, hnext, halloc.inv.overlaps.2, halloc.inv.overlaps.1⟩

/-! ### The pointer -/

/-- What is delivered in the register denotes the owned block `b` of the row: `[r]` is the
first cell of its payload, and `HFREE r` releases it and nothing else. -/
structure HandsOut (m : Machine) (r : MemAddr) (front : List Block) (b : Block) (back : List Block) :
    Prop where
  resolves : cellOf m ⟨.indirectReg, r⟩ =
    some (.ram (m.proc.heapStart.toNat + span heapHeaderBlockSize front + heapHeaderBlockSize))
  releases : ∃ m', perform (.hfree ⟨.register, r⟩) m = .ok () m' ∧ Freed m m' front b back

/-- A register that `HFREE` takes as an address. -/
theorem register_wordValue {m : Machine} {arg : MemAddr} {r : Fin 5} (hr : registerOf arg = some r)
    (p : Prop) [Decidable p] (hp : ¬ p) :
    ∃ t, wordValue p ⟨.register, arg⟩ m = .ok (m.registers r).toUInt16 (recorded m t) :=
  wordValue_run (c := .register r) ⟨by simp [cellOf, hr], trivial⟩ hp

/-- `HFREE` of an owned block by an operand that holds its address, as an instruction. -/
theorem hfree_freed {m : Machine} {front back : List Block} {b : Block} {arg : RawArgument} {v : MemAddr}
    {t : List Access} (h : HeapInv m (front ++ b :: back))
    (hv : wordValue (arg.type = .address) arg m = .ok v (recorded m t))
    (hp : v.toNat = m.proc.heapStart.toNat + span heapHeaderBlockSize front + heapHeaderBlockSize)
    (hb : b.owned = true) : ∃ m', perform (.hfree arg) m = .ok () m' ∧ Freed m m' front b back := by
  obtain ⟨codeSize, hl⟩ := h.loaded
  obtain ⟨u, ram, hrun, hchain, hout⟩ := hfree_run h hv hp hb
  refine ⟨_, hrun, ⟨⟨⟨⟨codeSize, hl⟩, hchain, ?_⟩, separated_coalesce _,
    ends_coalesce (ends_status h.ends rfl)⟩, ⟨rfl, rfl, rfl, rfl, rfl, rfl, rfl, rfl⟩, rfl, hout⟩⟩
  rw [span_coalesce, ← h.total]
  simp

/-- `HFREE` of an address below the heap does not change the row. -/
theorem hfree_below {m m' : Machine} {bs : List Block} {arg : RawArgument} {v : MemAddr}
    {t : List Access} (h : HeapInv m bs)
    (hv : wordValue (arg.type = .address) arg m = .ok v (recorded m t))
    (hlt : v.toNat ≤ m.proc.heapStart.toNat) (hok : perform (.hfree arg) m = .ok () m') :
    HeapInv m' bs := by
  obtain ⟨codeSize, hl⟩ := h.loaded
  have hram : ramSize = 64000 := rfl
  have hok : hfree arg m = .ok () m' := hok
  rw [hfree, bind_ok hv] at hok
  by_cases hin : (v - UInt16.ofNat heapHeaderBlockSize).toNat + 2 < ramSize
  · obtain ⟨u, hu⟩ := load_again .load hin t
    rw [bind_ok hu] at hok
    obtain ⟨_, m₁, hcheck, hok⟩ := bind_eq_ok.mp hok
    rw [raiseIf] at hcheck
    split at hcheck
    · cases hcheck
    · cases hcheck
      obtain ⟨w, hw⟩ := store_run (m := recorded m u) (v := HeapReg.free.toByte) .store hin
      -- The cell written is the one below the address, so it is below the row.
      have hbelow : (v - UInt16.ofNat heapHeaderBlockSize).toNat + 2 < m.proc.heapStart.toNat := by
        rw [UInt16.toNat_sub, show (UInt16.ofNat heapHeaderBlockSize).toNat = 3 from rfl] at hin ⊢
        omega
      rw [bind_ok hw, bind_ok (get_run _)] at hok
      have hkept : HeapInv (withRam m (Function.update m.ram
          ((v - UInt16.ofNat heapHeaderBlockSize).toNat + 2) HeapReg.free.toByte)) bs :=
        ⟨⟨⟨codeSize, hl⟩, h.chain.congr_range fun i hi _ => Function.update_of_ne (by omega) _ _,
          h.total⟩, h.separated, h.ends⟩
      obtain ⟨c, rest, rfl⟩ : ∃ c rest, bs = c :: rest :=
        List.exists_cons_of_ne_nil fun hnil => absurd h.total (by rw [hnil]; decide)
      obtain ⟨x, ram, hx, hchain, _⟩ := coalesce_run hkept.tail
        (Nat.lt_of_succ_lt (Nat.lt_of_succ_lt hkept.length_lt)) w
      rw [absorb_of_separated h.separated] at hchain
      cases hx.symm.trans hok
      exact ⟨⟨⟨codeSize, hl⟩, hchain, h.total⟩, h.separated, h.ends⟩
  · have hload : load .load ((v - UInt16.ofNat heapHeaderBlockSize).toNat + 2) (recorded m t) =
        .error .undefined _ := if_neg hin
    rw [bind_error hload] at hok
    cases hok

/-- A released block is not owned any more. -/
theorem Freed.not_chain {m m' : Machine} {front back : List Block} {b : Block}
    (h : Freed m m' front b back) (hb : b.owned = true) : ¬ HeapChain m' (front ++ b :: back) := by
  intro hchain
  have hblock : heapHeaderBlockSize = 3 := rfl
  have hmem : (span heapHeaderBlockSize front, b) ∈ blocksAt 0 (front ++ b :: back) :=
    mem_placed.mpr ⟨front, back, rfl, by omega⟩
  have hfree : (span heapHeaderBlockSize front, (⟨b.size, false⟩ : Block)) ∈
      blocksAt 0 (front ++ ⟨b.size, false⟩ :: back) := mem_placed.mpr ⟨front, back, rfl, by omega⟩
  rw [hchain.unique h.inv.toHeapChain] at hmem
  rcases placed_apart (owned_coalesce.mp ⟨hmem, hb⟩).1 hfree with heq | hlt | hlt
  · rw [(Prod.mk.inj heq).2] at hb
    cases hb
  · omega
  · omega

/-- When the register is right: the segment starts at address 0, and the payload below
address 256. -/
theorem handsOut_iff {m : Machine} {r : MemAddr} {i : Fin 5} {front back : List Block} {b : Block}
    (h : HeapInv m (front ++ b :: back)) (hb : b.owned = true) (hr : registerOf r = some i)
    (hi : m.registers i =
      lowByte (m.proc.heapStart.toNat + span heapHeaderBlockSize front + heapHeaderBlockSize)) :
    HandsOut m r front b back ↔ m.proc.firstSector = 0 ∧
      m.proc.heapStart.toNat + span heapHeaderBlockSize front + heapHeaderBlockSize < 256 := by
  obtain ⟨codeSize, hl⟩ := h.loaded
  have hstart := hl.heapStart
  obtain ⟨t, hv⟩ := register_wordValue (m := m) hr (ArgType.register = .address) (by decide)
  have hcell : cellOf m ⟨.indirectReg, r⟩ =
      some (.ram (m.proc.firstSector.toNat + (m.registers i).toNat)) := by simp [cellOf, hr]
  have hbyte : (m.registers i).toUInt16.toNat =
      (m.proc.heapStart.toNat + span heapHeaderBlockSize front + heapHeaderBlockSize) % 256 := by
    rw [UInt8.toNat_toUInt16, hi, lowByte_toNat]
  rw [hi, lowByte_toNat] at hcell
  constructor
  · intro hout
    have hresolves := hcell.symm.trans hout.resolves
    rw [Option.some.injEq, Cell.ram.injEq] at hresolves
    have hzero : m.proc.firstSector = 0 := by
      by_contra hne
      have hpos : m.proc.firstSector.toNat ≠ 0 := fun h0 => hne (UInt16.toNat_inj.mp h0)
      -- A segment elsewhere is a multiple of 256 up, and `HFREE` is given an address below it.
      obtain ⟨m', hfree, hfreed⟩ := hout.releases
      exact hfreed.not_chain hb (hfree_below h hv (by omega) hfree).toHeapChain
    rw [hzero, UInt16.toNat_zero] at hresolves
    exact ⟨hzero, by omega⟩
  · rintro ⟨hzero, hlt⟩
    refine ⟨?_, hfree_freed h hv (by rw [hbyte]; omega) hb⟩
    rw [hcell, hzero, UInt16.toNat_zero, Nat.mod_eq_of_lt hlt, Nat.zero_add]

theorem Allocated.handsOut {m m' : Machine} {r : MemAddr} {size : RawArgument} {v : MemAddr}
    {front back rest : List Block} {b c : Block} (h : Allocated m m' ⟨.register, r⟩ size v front b back)
    (hcarve : Blocks.carve heapHeaderBlockSize v.toNat b = c :: rest) (hc : c.owned = true) :
    HandsOut m' r front c (rest ++ back) ↔ m.proc.firstSector = 0 ∧
      m.proc.heapStart.toNat + span heapHeaderBlockSize front + heapHeaderBlockSize < 256 := by
  obtain ⟨i, hr, hregs⟩ := h.delivered
  have hinv := h.inv
  rw [hcarve, List.cons_append] at hinv
  rw [← h.layout.firstSector, ← h.layout.heapStart]
  refine handsOut_iff hinv hc hr ?_
  rw [hregs, Function.update_self, h.layout.heapStart]

/-- **The pointer `HALLOC` hands out is right exactly in a segment at address 0, below
address 256.** Everywhere else `[r]` is another cell or `HFREE r` does not release the
block. -/
theorem halloc_pointer {vm vm' : VM} {procs : List Process} {bytecode : List MemCell} {p : Process}
    (hs : Session vm procs) (hload : vm.load bytecode = .ok (p, vm')) (cin : Stdin) (handle : Window)
    (events : List WindowEvent) {m m' : Machine} (hrun : HeapRun (.boot vm' p cin handle events) m)
    {r : MemAddr} {size : RawArgument} (hi : current m = .halloc ⟨.register, r⟩ size)
    (hnext : m.next = .ok m') :
    ∃ v front b back c rest, HeapChain m (front ++ b :: back) ∧
      Allocated m m' ⟨.register, r⟩ size v front b back ∧
      Blocks.carve heapHeaderBlockSize v.toNat b = c :: rest ∧ c.owned = true ∧
      (HandsOut m' r front c (rest ++ back) ↔ m.proc.firstSector = 0 ∧
        m.proc.heapStart.toNat + span heapHeaderBlockSize front + heapHeaderBlockSize < 256) := by
  obtain ⟨bs, h⟩ := heapRun_inv hrun (heapInv_load hs hload cin handle events)
  obtain ⟨v, front, b, back, rfl, halloc⟩ := halloc_next h hi rfl hnext
  obtain ⟨c, rest, hcarve, hc⟩ := carve_head heapHeaderBlockSize v.toNat b
  exact ⟨v, front, b, back, c, rest, h.toHeapChain, halloc, hcarve, hc, halloc.handsOut hcarve hc⟩

theorem halloc_pointer_sixteen : ∃ m, hallocMachine.next = .ok m ∧
    ∃ v front b back c rest, HeapChain hallocMachine (front ++ b :: back) ∧
      Allocated hallocMachine m ⟨.register, 1⟩ ⟨.number, 16⟩ v front b back ∧
      Blocks.carve heapHeaderBlockSize v.toNat b = c :: rest ∧ c.owned = true ∧
      (HandsOut m 1 front c (rest ++ back) ↔ hallocMachine.proc.firstSector = 0 ∧
        hallocMachine.proc.heapStart.toNat + span heapHeaderBlockSize front + heapHeaderBlockSize < 256) := by
  obtain ⟨m, hnext⟩ := hallocMachine_next
  exact ⟨m, hnext, halloc_pointer .fresh hallocSixteen_loads ⟨[], false⟩ .null [] (.start _)
    hallocMachine_current hnext⟩

/-- The same instruction in an image of 256 bytes. -/
def hallocFar : List MemCell := hallocSixteen ++ List.replicate 248 0

def farMachine : Machine := .boot (freshVM hallocFar) (freshProcess hallocFar) ⟨[], false⟩ .null []

set_option maxRecDepth 4000 in
theorem farMachine_inv : HeapInv farMachine [⟨1000, false⟩] :=
  heapInv_load .fresh (load_fresh (by decide)) ⟨[], false⟩ .null []

set_option maxRecDepth 4000 in
/-- There the payload is at 259, and `[A]` is cell 3 of the program's own code. -/
theorem halloc_pointer_far : ∃ m, farMachine.next = .ok m ∧
    HeapChain m [⟨16, true⟩, ⟨981, false⟩] ∧ m.proc.heapStart.toNat + heapHeaderBlockSize = 259 ∧
    cellOf m ⟨.indirectReg, 1⟩ = some (.ram 3) ∧ ¬ HandsOut m 1 [] ⟨16, true⟩ [⟨981, false⟩] := by
  have hi : current farMachine = .halloc ⟨.register, 1⟩ ⟨.number, 16⟩ := by decide
  have hstart : farMachine.proc.heapStart.toNat = 256 := by decide
  have hsector : farMachine.proc.firstSector.toNat = 0 := by decide
  obtain ⟨m, hnext⟩ := halloc_completes (v := 16) (t := (fetched farMachine).touched)
    (show HeapInv farMachine ([] ++ [⟨1000, false⟩]) from farMachine_inv) (by decide) hi rfl rfl rfl
    (by simp) (by decide)
  obtain ⟨v, front, b, back, hrow, halloc⟩ := halloc_next farMachine_inv hi rfl hnext
  obtain ⟨rfl, rfl, rfl⟩ : front = [] ∧ b = ⟨1000, false⟩ ∧ back = [] := by
    cases front with
    | nil => simpa [eq_comm] using hrow
    | cons c front => simp at hrow
  obtain ⟨_, hv⟩ := halloc.request
  cases hv
  obtain ⟨_, hr, hregs⟩ := halloc.delivered
  cases hr
  have hstart' := halloc.layout.heapStart
  refine ⟨m, hnext, halloc.inv.toHeapChain, by rw [hstart', hstart]; rfl, ?_, fun hout => ?_⟩
  · have hsector' : m.proc.firstSector.toNat = 0 := by rw [halloc.layout.firstSector, hsector]
    simp only [cellOf, registerOf, hregs, hsector', hstart]
    rfl
  · have hlt := ((halloc.handsOut rfl rfl).mp hout).2
    rw [hstart] at hlt
    exact absurd hlt (by decide)

end CustomIsaVm
