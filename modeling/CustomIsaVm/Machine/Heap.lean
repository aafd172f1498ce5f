import CustomIsaVm.Lib.Blocks
import CustomIsaVm.Machine.Stack

/-! The heap of a process.

The heap is a row of blocks (`Blocks`) kept as raw headers in RAM: two bytes of
size, one of status. `ChainAt ram a bs` says that following the headers from `a`
visits the blocks `bs`. `HALLOC` is `Blocks.allocate` on that row and `HFREE` is
freeing and `Blocks.coalesce`: `halloc_serves`, `halloc_raises` and `hfree_run` say
what the two instructions do to the row and to the rest of RAM. -/
namespace CustomIsaVm

open Effect Exec Blocks

/-! ### The row of blocks in RAM -/

/-- The status byte of a block. -/
def statusByte (b : Block) : MemCell := if b.owned then HeapReg.owned.toByte else HeapReg.free.toByte

/-- Following the headers from `a` visits `bs`. -/
def ChainAt (ram : Nat → MemCell) : Nat → List Block → Prop
  | _, [] => True
  | a, b :: bs =>
    ((ram a).toNat * 256 + (ram (a + 1)).toNat = b.size ∧ ram (a + 2) = statusByte b) ∧
      ChainAt ram (a + heapHeaderBlockSize + b.size) bs

/-- The blocks with their addresses. -/
abbrev blocksAt (a : Nat) (bs : List Block) : List (Nat × Block) := placed heapHeaderBlockSize a bs

theorem statusByte_injective {b c : Block} (h : statusByte b = statusByte c) : b.owned = c.owned := by
  unfold statusByte at h
  cases hb : b.owned <;> cases hc : c.owned <;> simp_all [HeapReg.toByte]

theorem statusByte_owned {b : Block} : statusByte b = HeapReg.owned.toByte ↔ b.owned = true := by
  unfold statusByte
  cases b.owned <;> simp [HeapReg.toByte]

theorem statusByte_free {b : Block} : statusByte b = HeapReg.free.toByte ↔ b.owned = false := by
  unfold statusByte
  cases b.owned <;> simp [HeapReg.toByte]

theorem chainAt_append {ram : Nat → MemCell} {a : Nat} {as bs : List Block} :
    ChainAt ram a (as ++ bs) ↔ ChainAt ram a as ∧ ChainAt ram (a + span heapHeaderBlockSize as) bs := by
  induction as generalizing a with
  | nil => simp [ChainAt]
  | cons b as ih =>
    rw [List.cons_append, ChainAt, ChainAt, ih, span_cons, ← and_assoc,
      show a + heapHeaderBlockSize + b.size + span heapHeaderBlockSize as =
        a + (heapHeaderBlockSize + b.size + span heapHeaderBlockSize as) by omega]

/-- The row depends on the header bytes only. -/
theorem ChainAt.congr {ram ram' : Nat → MemCell} {a : Nat} {bs : List Block} (h : ChainAt ram a bs)
    (heq : ∀ p b, (p, b) ∈ blocksAt a bs → ∀ i, p ≤ i → i < p + heapHeaderBlockSize → ram' i = ram i) :
    ChainAt ram' a bs := by
  induction bs generalizing a with
  | nil => trivial
  | cons b bs ih =>
    have hhead := heq a b (List.mem_cons_self ..)
    refine ⟨?_, ih h.2 fun p c hc => heq p c (List.mem_cons_of_mem _ hc)⟩
    have hblock : heapHeaderBlockSize = 3 := rfl
    rw [hhead a (by omega) (by omega), hhead (a + 1) (by omega) (by omega),
      hhead (a + 2) (by omega) (by omega)]
    exact h.1

/-- It is as it was when the whole range is. -/
theorem ChainAt.congr_range {ram ram' : Nat → MemCell} {a : Nat} {bs : List Block}
    (h : ChainAt ram a bs)
    (heq : ∀ i, a ≤ i → i < a + span heapHeaderBlockSize bs → ram' i = ram i) : ChainAt ram' a bs := by
  refine h.congr fun p b hb i hi hi' => heq i ?_ ?_
  · exact (placed_end hb).1.trans hi
  · have := (placed_end hb).2
    omega

/-- RAM determines the blocks, given where the row ends. -/
theorem ChainAt.unique {ram : Nat → MemCell} {a : Nat} {bs cs : List Block} (hb : ChainAt ram a bs)
    (hc : ChainAt ram a cs) (hspan : span heapHeaderBlockSize bs = span heapHeaderBlockSize cs) :
    bs = cs := by
  have hblock : heapHeaderBlockSize = 3 := rfl
  induction bs generalizing a cs with
  | nil =>
    cases cs with
    | nil => rfl
    | cons c cs => rw [span_nil, span_cons] at hspan; omega
  | cons b bs ih =>
    cases cs with
    | nil => rw [span_nil, span_cons] at hspan; omega
    | cons c cs =>
      obtain ⟨⟨hbsize, hbstatus⟩, hb⟩ := hb
      obtain ⟨⟨hcsize, hcstatus⟩, hc⟩ := hc
      have hsize : b.size = c.size := hbsize.symm.trans hcsize
      have howned := statusByte_injective (hbstatus.symm.trans hcstatus)
      have hbc : b = c := by
        cases b
        cases c
        simp_all
      subst hbc
      rw [span_cons, span_cons] at hspan
      rw [ih hb hc (by omega)]

theorem bytes_size {n : Nat} (h : n < 65536) : (highByte n).toNat * 256 + (lowByte n).toNat = n := by
  rw [highByte_toNat, lowByte_toNat]
  omega

/-! ### The heap of a process -/

/-- The row of a process: it starts at `heap_start` and ends one header past
`heap_limit`. -/
structure HeapChain (m : Machine) (bs : List Block) : Prop where
  loaded : ∃ size, Loaded size m.proc
  chain : ChainAt m.ram m.proc.heapStart.toNat bs
  total : span heapHeaderBlockSize bs = VMconf.programHeapStartingSizeBytes + heapHeaderBlockSize

theorem HeapChain.unique {m : Machine} {bs cs : List Block} (hb : HeapChain m bs) (hc : HeapChain m cs) :
    bs = cs := hb.chain.unique hc.chain (hb.total.trans hc.total.symm)

/-- The invariant. -/
structure HeapInv (m : Machine) (bs : List Block) : Prop extends HeapChain m bs where
  separated : Separated bs
  ends : Ends bs

/-- The numbers of the layout that the heap instructions depend on. -/
theorem HeapChain.bounds {m : Machine} {bs : List Block} (h : HeapChain m bs) :
    m.proc.heapLimit.toNat = m.proc.heapStart.toNat + 1000 ∧ m.proc.heapStart.toNat + 2000 ≤ guiFlag ∧
      m.proc.heapStart.toNat + span heapHeaderBlockSize bs = m.proc.heapLimit.toNat + 3 ∧
      m.proc.stackLimit.toNat = m.proc.heapLimit.toNat := by
  obtain ⟨size, hl⟩ := h.loaded
  have hstart := hl.heapStart
  have hlimit := hl.heapLimit
  have hstack := hl.stackLimit
  have hfits := hl.fits
  have htotal := h.total
  simp only [VMconf.programHeapStartingSizeBytes, heapHeaderBlockSize] at htotal ⊢
  omega

/-- A process as the loader returns it has one free block. -/
theorem heapInv_load {vm vm' : VM} {procs : List Process} {bytecode : List MemCell} {p : Process}
    (hs : Session vm procs) (hload : vm.load bytecode = .ok (p, vm')) (cin : Stdin) (handle : Window)
    (events : List WindowEvent) : HeapInv (.boot vm' p cin handle events) [⟨1000, false⟩] := by
  have hl := (hs.load_loaded hload).1
  obtain ⟨hhigh, hlow, hstatus, _⟩ := (load_ram hload).heap
  rw [← hl.heapStart] at hhigh hlow hstatus
  refine ⟨⟨⟨_, hl⟩, ⟨⟨?_, hstatus⟩, trivial⟩, rfl⟩, List.isChain_singleton _, fun b hb => ?_⟩
  · show (vm'.ram p.heapStart.toNat).toNat * 256 + (vm'.ram (p.heapStart.toNat + 1)).toNat = 1000
    rw [hhigh, hlow]
    rfl
  · cases hb
    decide

/-! ### Reading headers -/

/-- What RAM holds at a header, whatever it is. -/
theorem header_ram {m : Machine} {a : MemAddr} (h : a.toNat + 2 < ramSize) (t : List Access) :
    ∃ u, header a (recorded m t) =
      .ok ((m.ram a.toNat).toNat * 256 + (m.ram (a.toNat + 1)).toNat, m.ram (a.toNat + 2)) (recorded m u) := by
  obtain ⟨t, ht⟩ := load_again (m := m) .load (show a.toNat < ramSize by omega) t
  obtain ⟨u, hu⟩ := load_again (m := m) .load (show a.toNat + 1 < ramSize by omega) t
  obtain ⟨w, hw⟩ := load_again (m := m) .load h u
  refine ⟨w, ?_⟩
  rw [header, bind_ok ht, bind_ok hu, bind_ok hw]
  rfl

theorem header_run {m : Machine} {a : MemAddr} {b : Block} {bs : List Block}
    (h : ChainAt m.ram a.toNat (b :: bs)) (hlt : a.toNat + 2 < ramSize) (t : List Access) :
    ∃ u, header a (recorded m t) = .ok (b.size, statusByte b) (recorded m u) := by
  obtain ⟨u, hu⟩ := header_ram hlt t
  exact ⟨u, by rw [hu, h.1.1, h.1.2]⟩

theorem nextChunk_toNat {a : MemAddr} {n : Nat} (h : a.toNat + heapHeaderBlockSize + n < 65536) :
    (nextChunk a n).toNat = a.toNat + heapHeaderBlockSize + n := by
  rw [nextChunk, UInt16.toNat_ofNat']
  omega

/-- No loop over the blocks runs out of fuel. -/
theorem lt_loopFuel {n : Nat} (h : n < 65536) : n < loopFuel := by
  unfold loopFuel
  have hpos : 1 ≤ 256 ^ ramSize := Nat.one_le_pow _ _ (by decide)
  exact Nat.lt_of_lt_of_le h (Nat.le_mul_of_pos_right _ hpos)

theorem length_le_span (bs : List Block) : bs.length ≤ span heapHeaderBlockSize bs := by
  have hblock : heapHeaderBlockSize = 3 := rfl
  induction bs with
  | nil => exact Nat.zero_le _
  | cons b bs ih => rw [List.length_cons, span_cons]; omega

/-! ### The search of `HALLOC` -/

section
variable {m : Machine} {a : MemAddr} {bs : List Block}

/-- A part of the row, from `a` to its end one header past the limit. -/
structure Tail (m : Machine) (a : MemAddr) (bs : List Block) : Prop where
  chain : ChainAt m.ram a.toNat bs
  limit : a.toNat + span heapHeaderBlockSize bs = m.proc.heapLimit.toNat + heapHeaderBlockSize
  fits : m.proc.heapLimit.toNat + heapHeaderBlockSize < guiFlag
  ends : Ends bs

/-- The next block, from which the rest of the row starts. -/
theorem Tail.next {b : Block} {rest : List Block} (h : Tail m a (b :: rest)) :
    (nextChunk a b.size).toNat = a.toNat + heapHeaderBlockSize + b.size ∧
      (rest ≠ [] → Tail m (nextChunk a b.size) rest) := by
  have hlimit := h.limit
  have hfits := h.fits
  have hflag : guiFlag = 59903 := rfl
  rw [span_cons] at hlimit
  have hnext := nextChunk_toNat (a := a) (n := b.size) (by omega)
  refine ⟨hnext, fun hne => ⟨?_, ?_, hfits, (ends_cons hne).mp h.ends⟩⟩
  · rw [hnext]
    exact h.chain.2
  · rw [hnext]
    omega

/-- A header of the row is below the limit and well inside RAM. -/
theorem Tail.head_lt {b : Block} {rest : List Block} (h : Tail m a (b :: rest)) :
    a.toNat < m.proc.heapLimit.toNat ∧ a.toNat + 2 < ramSize := by
  have hlt : a.toNat + heapHeaderBlockSize < a.toNat + span heapHeaderBlockSize (b :: rest) :=
    placed_lt h.ends (List.mem_cons_self ..)
  have hlimit := h.limit
  have hfits := h.fits
  have hblock : heapHeaderBlockSize = 3 := rfl
  have hflag : guiFlag = 59903 := rfl
  have hram : ramSize = 64000 := rfl
  omega

theorem not_limit_le {b : Block} {rest : List Block} (h : Tail m a (b :: rest)) :
    ¬ m.proc.heapLimit ≤ a := by
  have := h.head_lt.1
  rw [UInt16.le_iff_toNat_le]
  omega

/-- One round of the search, at a block of the row. -/
theorem hallocScan_block {n : Nat} {b : Block} {rest : List Block} (h : Tail m a (b :: rest))
    (fuel : Nat) (t : List Access) : ∃ u, hallocScan n (fuel + 1) a (recorded m t) =
      if Serves n b then .ok (a, b.size) (recorded m u)
      else hallocScan n fuel (nextChunk a b.size) (recorded m u) := by
  obtain ⟨u, hu⟩ := header_run h.chain h.head_lt.2 t
  refine ⟨u, ?_⟩
  rw [hallocScan, bind_ok (get_run _), recorded_proc, bind_ok (raiseIf_run (not_limit_le h)), bind_ok hu]
  dsimp only
  by_cases howned : b.owned = true
  · rw [if_pos (statusByte_owned.mpr howned), if_neg (by simp [Serves, howned])]
  · rw [if_neg (statusByte_owned.not.mpr howned)]
    by_cases hn : n ≤ b.size
    · rw [if_pos hn, if_pos ⟨by simpa using howned, hn⟩]
      rfl
    · rw [if_neg hn, if_neg fun hs => hn hs.2]

/-- The search stops at the first block that can serve. -/
theorem hallocScan_finds {n fuel : Nat} {front back : List Block} {b : Block}
    (h : Tail m a (front ++ b :: back)) (hfront : ∀ c ∈ front, ¬ Serves n c) (hb : Serves n b)
    (hfuel : front.length < fuel) (t : List Access) :
    ∃ u chunk, hallocScan n fuel a (recorded m t) = .ok (chunk, b.size) (recorded m u) ∧
      chunk.toNat = a.toNat + span heapHeaderBlockSize front := by
  induction front generalizing a fuel t with
  | nil =>
    obtain ⟨fuel, rfl⟩ : ∃ k, fuel = k + 1 := ⟨fuel - 1, by simp at hfuel; omega⟩
    obtain ⟨u, hu⟩ := hallocScan_block (n := n) h fuel t
    exact ⟨u, a, by rw [hu, if_pos hb], by simp⟩
  | cons c front ih =>
    rw [List.length_cons] at hfuel
    obtain ⟨fuel, rfl⟩ : ∃ k, fuel = k + 1 := ⟨fuel - 1, by omega⟩
    obtain ⟨u, hu⟩ := hallocScan_block (n := n) h fuel t
    obtain ⟨hnext, htail⟩ := h.next
    obtain ⟨w, chunk, hw, hchunk⟩ := ih (htail (by simp))
      (fun d hd => hfront d (List.mem_cons_of_mem c hd)) (show front.length < fuel by omega) u
    refine ⟨w, chunk, ?_, by rw [hchunk, hnext, span_cons]; omega⟩
    rw [hu, if_neg (hfront c (List.mem_cons_self ..)), hw]

/-- Past the last block the search raises. -/
theorem hallocScan_past {n fuel : Nat} (h : m.proc.heapLimit ≤ a) (hfuel : 0 < fuel) (t : List Access) :
    hallocScan n fuel a (recorded m t) = .error (.throws .heapOverflow) (recorded m t) := by
  obtain ⟨fuel, rfl⟩ : ∃ k, fuel = k + 1 := ⟨fuel - 1, by omega⟩
  rw [hallocScan, bind_ok (get_run _)]
  exact bind_error (raiseIf_raises h)

/-- Where no block can serve, the search raises. -/
theorem hallocScan_raises {n fuel : Nat} {b : Block} {rest : List Block} (h : Tail m a (b :: rest))
    (hnone : ∀ c ∈ b :: rest, ¬ Serves n c) (hfuel : rest.length + 1 < fuel) (t : List Access) :
    ∃ u, hallocScan n fuel a (recorded m t) = .error (.throws .heapOverflow) (recorded m u) := by
  induction rest generalizing a b fuel t with
  | nil =>
    obtain ⟨fuel, rfl⟩ : ∃ k, fuel = k + 1 := ⟨fuel - 1, by omega⟩
    obtain ⟨u, hu⟩ := hallocScan_block (n := n) h fuel t
    refine ⟨u, ?_⟩
    rw [hu, if_neg (hnone b (List.mem_cons_self ..)), hallocScan_past _ (by omega)]
    have hlimit := h.limit
    rw [UInt16.le_iff_toNat_le, h.next.1]
    rw [span_cons, span_nil] at hlimit
    omega
  | cons c rest ih =>
    obtain ⟨fuel, rfl⟩ : ∃ k, fuel = k + 1 := ⟨fuel - 1, by omega⟩
    obtain ⟨u, hu⟩ := hallocScan_block (n := n) h fuel t
    rw [List.length_cons] at hfuel
    obtain ⟨w, hw⟩ := ih (h.next.2 (by simp)) (fun d hd => hnone d (List.mem_cons_of_mem b hd))
      (show rest.length + 1 < fuel by omega) u
    exact ⟨w, by rw [hu, if_neg (hnone b (List.mem_cons_self ..)), hw]⟩

/-! ### Carving -/

/-- RAM after a header was written. -/
def headerWritten (ram : Nat → MemCell) (start size : Nat) (status : HeapReg) : Nat → MemCell :=
  writeBytes ram start [highByte size, lowByte size, status.toByte]

theorem headerWritten_outside {ram : Nat → MemCell} {start size i : Nat} {status : HeapReg}
    (h : ¬ (start ≤ i ∧ i < start + heapHeaderBlockSize)) :
    headerWritten ram start size status i = ram i := by
  have hblock : heapHeaderBlockSize = 3 := rfl
  by_cases hlt : i < start
  · exact writeBytes_below hlt
  · exact writeBytes_above (by simp only [List.length_cons, List.length_nil]; omega)

theorem writeHeader_run {start : Nat} (size : Nat) (status : HeapReg) (h : start + 2 < ramSize)
    (t : List Access) : ∃ u, writeHeader start size status (recorded m t) =
      .ok () (recorded (withRam m (headerWritten m.ram start size status)) u) := by
  obtain ⟨u, hu⟩ := store_run (m := recorded m t) (v := highByte size) .store
    (show start < ramSize by omega)
  obtain ⟨w, hw⟩ := store_run (m := recorded (put m (highByte size) (.ram start)) u)
    (v := lowByte size) .store (show start + 1 < ramSize by omega)
  obtain ⟨x, hx⟩ := store_run
    (m := recorded (put (put m (highByte size) (.ram start)) (lowByte size) (.ram (start + 1))) w)
    (v := status.toByte) .store h
  refine ⟨x, ?_⟩
  rw [writeHeader]
  exact (bind_ok hu).trans ((bind_ok hw).trans hx)

/-- A header that was written is read back as the block. -/
theorem chainAt_headerWritten (ram : Nat → MemCell) (start : Nat) {size : Nat} (hsize : size < 65536)
    (status : HeapReg) {owned : Bool} (hstatus : status.toByte = statusByte ⟨size, owned⟩) :
    ChainAt (headerWritten ram start size status) start [⟨size, owned⟩] := by
  obtain ⟨hhigh, hlow, hbyte, _⟩ :=
    holds_writeBytes ram start [highByte size, lowByte size, status.toByte]
  refine ⟨⟨?_, ?_⟩, trivial⟩
  · rw [headerWritten, hhigh, hlow]
    exact bytes_size hsize
  · rw [← hstatus]
    exact hbyte

/-- The block handed out is carved in RAM as in the row, and nothing outside it is written. -/
theorem carve_run {n chunk : Nat} {b : Block} (hfits : chunk + heapHeaderBlockSize + b.size < guiFlag)
    (hn : n ≤ b.size) (t : List Access) :
    ∃ u ram, Exec.carve n chunk b.size (recorded m t) = .ok () (recorded (withRam m ram) u) ∧
      ChainAt ram chunk (Blocks.carve heapHeaderBlockSize n b) ∧
      ∀ i, ¬ (chunk ≤ i ∧ i < chunk + heapHeaderBlockSize + b.size) → ram i = m.ram i := by
  have hblock : heapHeaderBlockSize = 3 := rfl
  have hflag : guiFlag = 59903 := rfl
  have hram : ramSize = 64000 := rfl
  unfold Exec.carve Blocks.carve
  by_cases hsplit : n + heapHeaderBlockSize < b.size
  · rw [if_pos hsplit, if_pos hsplit]
    obtain ⟨u, hu⟩ := writeHeader_run (m := m) (b.size - heapHeaderBlockSize - n) .free
      (show chunk + heapHeaderBlockSize + n + 2 < ramSize by omega) t
    obtain ⟨w, hw⟩ := writeHeader_run (m := withRam m (headerWritten m.ram
      (chunk + heapHeaderBlockSize + n) (b.size - heapHeaderBlockSize - n) .free)) n .owned
      (show chunk + 2 < ramSize by omega) u
    refine ⟨w, _, (bind_ok hu).trans hw, ⟨?_, ?_⟩, fun i hi => ?_⟩
    · exact (chainAt_headerWritten _ chunk (by omega) .owned rfl).1
    · -- The header of the rest was written first; the other one lies before it.
      refine ChainAt.congr_range (chainAt_headerWritten m.ram (chunk + heapHeaderBlockSize + n)
        (by omega) .free rfl) fun i hi _ => headerWritten_outside (by dsimp only at hi; omega)
    · exact (headerWritten_outside (by omega)).trans (headerWritten_outside (by omega))
  · rw [if_neg hsplit, if_neg hsplit]
    obtain ⟨u, hu⟩ := writeHeader_run (m := m) b.size .owned (show chunk + 2 < ramSize by omega) t
    exact ⟨u, _, hu, chainAt_headerWritten _ _ (by omega) .owned rfl,
      fun i hi => headerWritten_outside (by omega)⟩

/-! ### `HALLOC` -/

theorem HeapInv.tail {bs : List Block} (h : HeapInv m bs) : Tail m m.proc.heapStart bs := by
  have hb := h.bounds
  have hflag : guiFlag = 59903 := rfl
  have hblock : heapHeaderBlockSize = 3 := rfl
  exact ⟨h.chain, by omega, by omega, h.ends⟩

/-- The fuel of the loops is enough for the row. -/
theorem HeapInv.length_lt {bs : List Block} (h : HeapInv m bs) : bs.length + 1 < loopFuel := by
  have hlen := length_le_span bs
  have htotal := h.total
  simp only [VMconf.programHeapStartingSizeBytes, heapHeaderBlockSize] at htotal hlen
  exact lt_loopFuel (by omega)

/-- A change inside the extent of one block leaves the rest of the row as it was. -/
theorem ChainAt.replace {ram ram' : Nat → MemCell} {front back new : List Block} {b : Block} {o : Nat}
    (h : ChainAt ram o (front ++ b :: back))
    (hnew : ChainAt ram' (o + span heapHeaderBlockSize front) new)
    (hspan : span heapHeaderBlockSize new = heapHeaderBlockSize + b.size)
    (hout : ∀ i, ¬ (o + span heapHeaderBlockSize front ≤ i ∧
      i < o + span heapHeaderBlockSize front + heapHeaderBlockSize + b.size) → ram' i = ram i) :
    ChainAt ram' o (front ++ (new ++ back)) := by
  obtain ⟨hfront, _, hback⟩ := chainAt_append.mp h
  refine chainAt_append.mpr ⟨hfront.congr_range fun i _ hi => hout i (by omega),
    chainAt_append.mpr ⟨hnew, ?_⟩⟩
  rw [hspan, show o + span heapHeaderBlockSize front + (heapHeaderBlockSize + b.size) =
    o + span heapHeaderBlockSize front + heapHeaderBlockSize + b.size by omega]
  exact hback.congr_range fun i hi _ => hout i (by omega)

/-- `HALLOC` carves the first block that can serve; what remains is to deliver the low
byte of the address of its payload. -/
theorem halloc_serves {front back : List Block} {b : Block} {size : RawArgument} {v : MemAddr}
    {t : List Access} (place : RawArgument) (h : HeapInv m (front ++ b :: back))
    (hv : wordValue (size.type = .number) size m = .ok v (recorded m t))
    (hfront : ∀ c ∈ front, ¬ Serves v.toNat c) (hb : Serves v.toNat b) :
    ∃ u ram, halloc place size m =
        (resolveWriteableArg place.type place.value >>= fun c => c.write
          (lowByte (m.proc.heapStart.toNat + span heapHeaderBlockSize front + heapHeaderBlockSize)))
          (recorded (withRam m ram) u) ∧
      ChainAt ram m.proc.heapStart.toNat
        (front ++ (Blocks.carve heapHeaderBlockSize v.toNat b ++ back)) ∧
      ∀ i, ¬ (m.proc.heapStart.toNat + span heapHeaderBlockSize front ≤ i ∧
        i < m.proc.heapStart.toNat + span heapHeaderBlockSize front + heapHeaderBlockSize + b.size) →
        ram i = m.ram i := by
  have hbounds := h.bounds
  have hflag : guiFlag = 59903 := rfl
  have hlen := h.length_lt
  have hspan := hbounds.2.2.1
  rw [span_append, span_cons] at hspan
  rw [List.length_append] at hlen
  obtain ⟨u, chunk, hscan, hchunk⟩ := hallocScan_finds h.tail hfront hb
    (show front.length < loopFuel by omega) t
  obtain ⟨w, ram, hcarve, hchain, hout⟩ := carve_run (m := m)
    (show chunk.toNat + heapHeaderBlockSize + b.size < guiFlag by omega) hb.2 u
  have hbyte : (chunk + UInt16.ofNat heapHeaderBlockSize).toUInt8 =
      lowByte (m.proc.heapStart.toNat + span heapHeaderBlockSize front + heapHeaderBlockSize) := by
    apply UInt8.toNat_inj.mp
    rw [UInt16.toNat_toUInt8, UInt16.toNat_add, lowByte_toNat, hchunk,
      show (UInt16.ofNat heapHeaderBlockSize).toNat = heapHeaderBlockSize from rfl]
    have hblock : heapHeaderBlockSize = 3 := rfl
    omega
  rw [hchunk] at hchain hout
  refine ⟨w, ram, ?_, h.chain.replace hchain span_carve hout, hout⟩
  rw [halloc, bind_ok hv, bind_ok (get_run _), recorded_proc, bind_ok hscan]
  refine (bind_ok hcarve).trans ?_
  rw [hbyte]

/-- Where no block can serve, `HALLOC` raises. -/
theorem halloc_raises {bs : List Block} {size : RawArgument} {v : MemAddr} {t : List Access}
    (place : RawArgument) (h : HeapInv m bs) (hv : wordValue (size.type = .number) size m = .ok v (recorded m t))
    (hnone : ∀ c ∈ bs, ¬ Serves v.toNat c) :
    ∃ u, halloc place size m = .error (.throws .heapOverflow) (recorded m u) := by
  cases bs with
  | nil => exact absurd h.total (by decide)
  | cons b rest =>
    obtain ⟨u, hu⟩ := hallocScan_raises h.tail hnone (Nat.lt_of_succ_lt h.length_lt) t
    refine ⟨u, ?_⟩
    rw [halloc, bind_ok hv, bind_ok (get_run _), recorded_proc]
    exact bind_error hu

/-! ### `HFREE` -/

/-- RAM after the size of a header was written. -/
def resized (ram : Nat → MemCell) (start size : Nat) : Nat → MemCell :=
  writeBytes ram start [highByte size, lowByte size]

theorem resized_outside {ram : Nat → MemCell} {start size i : Nat} (h : ¬ (start ≤ i ∧ i < start + 2)) :
    resized ram start size i = ram i := by
  by_cases hlt : i < start
  · exact writeBytes_below hlt
  · exact writeBytes_above (by simp only [List.length_cons, List.length_nil]; omega)

/-- Two free neighbours become one block. -/
theorem Tail.merge {b c : Block} {rest : List Block} (h : Tail m a (b :: c :: rest))
    (hb : b.owned = false) :
    Tail (withRam m (resized m.ram a.toNat (b.size + heapHeaderBlockSize + c.size))) a
      (⟨b.size + heapHeaderBlockSize + c.size, false⟩ :: rest) := by
  have hlimit := h.limit
  have hfits := h.fits
  have hflag : guiFlag = 59903 := rfl
  have hblock : heapHeaderBlockSize = 3 := rfl
  rw [span_cons, span_cons] at hlimit
  obtain ⟨⟨_, hstatus⟩, _, hrest⟩ := h.chain
  obtain ⟨hhigh, hlow, _⟩ := holds_writeBytes m.ram a.toNat
    [highByte (b.size + heapHeaderBlockSize + c.size), lowByte (b.size + heapHeaderBlockSize + c.size)]
  refine ⟨⟨⟨?_, ?_⟩, ?_⟩, ?_, hfits, ?_⟩
  · show (writeBytes m.ram _ _ _).toNat * 256 + (writeBytes m.ram _ _ _).toNat = _
    rw [hhigh, hlow]
    exact bytes_size (by omega)
  · show resized m.ram _ _ _ = _
    rw [resized_outside (by omega), hstatus]
    simp [statusByte, hb]
  · dsimp only
    rw [show a.toNat + heapHeaderBlockSize + (b.size + heapHeaderBlockSize + c.size) =
      a.toNat + heapHeaderBlockSize + b.size + heapHeaderBlockSize + c.size by omega]
    exact hrest.congr_range fun i hi _ => resized_outside (by omega)
  · show a.toNat + span heapHeaderBlockSize _ = m.proc.heapLimit.toNat + heapHeaderBlockSize
    rw [span_cons]
    dsimp only
    omega
  · have hc := (ends_cons (List.cons_ne_nil c rest)).mp h.ends
    cases rest with
    | nil =>
      intro d hd
      cases hd
      show 1 ≤ b.size + heapHeaderBlockSize + c.size
      omega
    | cons d rest => exact (ends_cons (by simp)).mpr ((ends_cons (by simp)).mp hc)

/-- One round of the loop of `HFREE`, at two blocks of the row. -/
theorem coalesce_block {b c : Block} {rest : List Block} (h : Tail m a (b :: c :: rest)) (fuel : Nat)
    (t : List Access) : ∃ u, Exec.coalesce (fuel + 1) a (recorded m t) =
      if b.owned = false ∧ c.owned = false then
        Exec.coalesce fuel a (recorded
          (withRam m (resized m.ram a.toNat (b.size + heapHeaderBlockSize + c.size))) u)
      else Exec.coalesce fuel (nextChunk a b.size) (recorded m u) := by
  have hnext := h.next.2 (List.cons_ne_nil c rest)
  have hram : ramSize = 64000 := rfl
  obtain ⟨u, hu⟩ := header_run h.chain h.head_lt.2 t
  obtain ⟨w, hw⟩ := header_run hnext.chain hnext.head_lt.2 u
  have hlt : a < m.proc.heapLimit := UInt16.lt_iff_toNat_lt.mpr h.head_lt.1
  have hlt' : nextChunk a b.size < m.proc.heapLimit := UInt16.lt_iff_toNat_lt.mpr hnext.head_lt.1
  rw [Exec.coalesce, bind_ok (get_run _), recorded_proc, if_pos hlt]
  by_cases hfree : b.owned = false ∧ c.owned = false
  · obtain ⟨x, hx⟩ := store_run (m := recorded m w)
      (v := highByte (b.size + heapHeaderBlockSize + c.size)) .store
      (show a.toNat < ramSize by have := h.head_lt.2; omega)
    obtain ⟨y, hy⟩ := store_run
      (m := recorded (put m (highByte (b.size + heapHeaderBlockSize + c.size)) (.ram a.toNat)) x)
      (v := lowByte (b.size + heapHeaderBlockSize + c.size)) .store
      (show a.toNat + 1 < ramSize by have := h.head_lt.2; omega)
    refine ⟨y, ?_⟩
    rw [if_pos hfree]
    refine (bind_ok hu).trans ?_
    dsimp only
    rw [if_pos hlt']
    refine (bind_ok hw).trans ?_
    dsimp only
    rw [if_pos ⟨statusByte_free.mpr hfree.1, statusByte_free.mpr hfree.2⟩]
    exact (bind_ok hx).trans (bind_ok hy)
  · refine ⟨w, ?_⟩
    rw [if_neg hfree]
    refine (bind_ok hu).trans ?_
    dsimp only
    rw [if_pos hlt']
    refine (bind_ok hw).trans ?_
    dsimp only
    rw [if_neg fun hs => hfree ⟨statusByte_free.mp hs.1, statusByte_free.mp hs.2⟩]

/-- The loop of `HFREE` on a part of the row: it is coalesced, and only headers of free
blocks are written. -/
theorem coalesce_run {b : Block} {rest : List Block} {fuel : Nat} (h : Tail m a (b :: rest))
    (hfuel : rest.length < fuel) (t : List Access) :
    ∃ u ram, Exec.coalesce fuel a (recorded m t) = .ok () (recorded (withRam m ram) u) ∧
      ChainAt ram a.toNat (absorb heapHeaderBlockSize b rest) ∧
      ∀ i, ram i ≠ m.ram i → ∃ p c, (p, c) ∈ blocksAt a.toNat (b :: rest) ∧ c.owned = false ∧
        p ≤ i ∧ i < p + heapHeaderBlockSize := by
  induction rest generalizing m a b fuel t with
  | nil =>
    obtain ⟨fuel, rfl⟩ : ∃ k, fuel = k + 1 := ⟨fuel - 1, by omega⟩
    obtain ⟨u, hu⟩ := header_run h.chain h.head_lt.2 t
    refine ⟨u, m.ram, ?_, h.chain, fun i hi => absurd rfl hi⟩
    have hlimit := h.limit
    rw [span_cons, span_nil] at hlimit
    have hnot : ¬ nextChunk a b.size < m.proc.heapLimit := by
      rw [UInt16.lt_iff_toNat_lt, h.next.1]
      omega
    have hlt : a < m.proc.heapLimit := UInt16.lt_iff_toNat_lt.mpr h.head_lt.1
    rw [Exec.coalesce, bind_ok (get_run _), recorded_proc, if_pos hlt]
    refine (bind_ok hu).trans ?_
    dsimp only
    rw [if_neg hnot]
    rfl
  | cons c rest ih =>
    rw [List.length_cons] at hfuel
    obtain ⟨fuel, rfl⟩ : ∃ k, fuel = k + 1 := ⟨fuel - 1, by omega⟩
    obtain ⟨u, hu⟩ := coalesce_block h fuel t
    rw [absorb]
    split at hu
    · rename_i hfree
      rw [if_pos hfree]
      obtain ⟨w, ram, hw, hchain, hout⟩ := ih (h.merge hfree.1) (show rest.length < fuel by omega) u
      refine ⟨w, ram, hu.trans hw, hchain, fun i hi => ?_⟩
      have hblock : heapHeaderBlockSize = 3 := rfl
      by_cases hin : a.toNat ≤ i ∧ i < a.toNat + 2
      · exact ⟨a.toNat, b, List.mem_cons_self .., hfree.1, hin.1, by omega⟩
      · obtain ⟨p, d, hd, howned, hpi⟩ := hout i (by
          rw [show (withRam m _).ram i = resized m.ram a.toNat _ i from rfl, resized_outside hin]
          exact hi)
        rcases List.mem_cons.mp hd with hd | hd
        · cases hd
          exact ⟨a.toNat, b, List.mem_cons_self .., hfree.1, hpi⟩
        · refine ⟨p, d, List.mem_cons_of_mem _ (List.mem_cons_of_mem _ ?_), howned, hpi⟩
          rw [show a.toNat + heapHeaderBlockSize + b.size + heapHeaderBlockSize + c.size =
            a.toNat + heapHeaderBlockSize + (b.size + heapHeaderBlockSize + c.size) by omega]
          exact hd
    · rename_i hfree
      rw [if_neg hfree]
      obtain ⟨hnext, htail⟩ := h.next
      obtain ⟨w, ram, hw, hchain, hout⟩ := ih (htail (List.cons_ne_nil c rest))
        (show rest.length < fuel by omega) u
      rw [hnext] at hchain hout
      refine ⟨w, ram, hu.trans hw, ?_, fun i hi => ?_⟩
      · have hhead : ChainAt m.ram a.toNat [b] := ⟨h.chain.1, trivial⟩
        have hsame : ChainAt ram a.toNat [b] := by
          refine hhead.congr_range fun i _ hi => by_contra fun hne => ?_
          obtain ⟨p, d, hd, _, hpi, _⟩ := hout i hne
          have := (placed_end hd).1
          rw [span_cons, span_nil] at hi
          omega
        exact ⟨hsame.1, hchain⟩
      · obtain ⟨p, d, hd, howned, hpi⟩ := hout i hi
        exact ⟨p, d, List.mem_cons_of_mem _ hd, howned, hpi⟩

/-- Marking a block as free. -/
theorem chainAt_freed {ram : Nat → MemCell} {front back : List Block} {b : Block} {o : Nat}
    (h : ChainAt ram o (front ++ b :: back)) :
    ChainAt (Function.update ram (o + span heapHeaderBlockSize front + 2) HeapReg.free.toByte) o
      (front ++ ⟨b.size, false⟩ :: back) := by
  have hblock : heapHeaderBlockSize = 3 := rfl
  obtain ⟨_, ⟨hsize, _⟩, _⟩ := chainAt_append.mp h
  have hnew : ChainAt (Function.update ram (o + span heapHeaderBlockSize front + 2)
      HeapReg.free.toByte) (o + span heapHeaderBlockSize front) [⟨b.size, false⟩] := by
    refine ⟨⟨?_, ?_⟩, trivial⟩
    · rw [Function.update_of_ne (by omega), Function.update_of_ne (by omega)]
      exact hsize
    · rw [Function.update_self]
      rfl
  exact h.replace hnew (by simp) fun i hi => Function.update_of_ne (by omega) _ _

/-- `HFREE` of the payload of an owned block frees it and coalesces the row; besides its
status only headers of free blocks are written. -/
theorem hfree_run {front back : List Block} {b : Block} {arg : RawArgument} {v : MemAddr}
    {t : List Access} (h : HeapInv m (front ++ b :: back))
    (hv : wordValue (arg.type = .address) arg m = .ok v (recorded m t))
    (hp : v.toNat = m.proc.heapStart.toNat + span heapHeaderBlockSize front + heapHeaderBlockSize)
    (hb : b.owned = true) :
    ∃ u ram, hfree arg m = .ok () (recorded (withRam m ram) u) ∧
      ChainAt ram m.proc.heapStart.toNat
        (Blocks.coalesce heapHeaderBlockSize (front ++ ⟨b.size, false⟩ :: back)) ∧
      ∀ i, ram i ≠ m.ram i → ∃ p c,
        (p, c) ∈ blocksAt m.proc.heapStart.toNat (front ++ ⟨b.size, false⟩ :: back) ∧
        c.owned = false ∧ p ≤ i ∧ i < p + heapHeaderBlockSize := by
  have hbounds := h.bounds
  have hflag : guiFlag = 59903 := rfl
  have hram : ramSize = 64000 := rfl
  have hblock : heapHeaderBlockSize = 3 := rfl
  have hspan := hbounds.2.2.1
  rw [span_append, span_cons] at hspan
  obtain ⟨_, ⟨_, hstatus⟩, _⟩ := chainAt_append.mp h.chain
  have hstart : (v - UInt16.ofNat heapHeaderBlockSize).toNat =
      m.proc.heapStart.toNat + span heapHeaderBlockSize front := by
    rw [UInt16.toNat_sub, show (UInt16.ofNat heapHeaderBlockSize).toNat = 3 from rfl]
    omega
  have hlt : (v - UInt16.ofNat heapHeaderBlockSize).toNat + 2 < ramSize := by omega
  have howned : m.ram ((v - UInt16.ofNat heapHeaderBlockSize).toNat + 2) = HeapReg.owned.toByte := by
    rw [hstart, hstatus]
    exact statusByte_owned.mpr hb
  obtain ⟨u, hu⟩ := load_again (m := m) .load hlt t
  obtain ⟨w, hw⟩ := store_run (m := recorded m u) (v := HeapReg.free.toByte) .store hlt
  rw [howned] at hu
  have hfreed := chainAt_freed h.chain
  obtain ⟨c, rest, hrow⟩ : ∃ c rest, front ++ ⟨b.size, false⟩ :: back = c :: rest :=
    List.exists_cons_of_ne_nil (by simp)
  have hlen : (front ++ (⟨b.size, false⟩ : Block) :: back).length + 1 < loopFuel := by
    simpa using h.length_lt
  have hspan' : span heapHeaderBlockSize (front ++ (⟨b.size, false⟩ : Block) :: back) =
      span heapHeaderBlockSize (front ++ b :: back) := by simp
  have hends : Ends (front ++ (⟨b.size, false⟩ : Block) :: back) := ends_status h.ends rfl
  rw [hrow] at hfreed hlen hspan' hends ⊢
  rw [List.length_cons] at hlen
  have htail : Tail (withRam m (Function.update m.ram
      (m.proc.heapStart.toNat + span heapHeaderBlockSize front + 2) HeapReg.free.toByte))
      m.proc.heapStart (c :: rest) :=
    ⟨hfreed, by rw [hspan']; exact h.tail.limit, h.tail.fits, hends⟩
  obtain ⟨x, ram, hx, hchain, hout⟩ := coalesce_run htail (show rest.length < loopFuel by omega) w
  refine ⟨x, ram, ?_, hchain, fun i hi => ?_⟩
  · rw [hfree, bind_ok hv]
    refine (bind_ok hu).trans ((bind_ok (raiseIf_run (by simp))).trans ?_)
    refine (bind_ok hw).trans ((bind_ok (get_run _)).trans ?_)
    rw [hstart]
    exact hx
  · by_cases hstat : i = m.proc.heapStart.toNat + span heapHeaderBlockSize front + 2
    · refine ⟨m.proc.heapStart.toNat + span heapHeaderBlockSize front, ⟨b.size, false⟩, ?_, rfl,
        by omega, by omega⟩
      rw [← hrow]
      exact mem_placed.mpr ⟨front, back, rfl, rfl⟩
    · refine hout i ?_
      show ram i ≠ Function.update m.ram _ _ i
      rw [Function.update_of_ne hstat]
      exact hi

end

end CustomIsaVm
