import CustomIsaVm.Machine.Loader

/-! Moving a process to another base.

`Process::update` recomputes a layout from the layout before, and adds the heap to the
memory of the process each time. `Drifted` is what `n` moves come to where nothing wraps:
the offsets are kept, while the segment, and from the second move on the code, is longer
by a heap for every move. -/
namespace CustomIsaVm

/-! ### What a move owes -/

/-- `b - a`, as a number. -/
def gap (a b : MemAddr) : Int := b.toNat - a.toNat

/-- `q` is laid out as `p` is, at its own base. -/
structure Process.KeepsLayout (p q : Process) : Prop where
  code : gap q.firstSector q.lastCodeSector = gap p.firstSector p.lastCodeSector
  pc : gap q.firstSector q.pc = gap p.firstSector p.pc
  sp : gap q.firstSector q.sp = gap p.firstSector p.sp
  heap : gap q.heapStart q.heapLimit = gap p.heapStart p.heapLimit
  heapStart : q.heapStart = q.lastCodeSector
  heapLimit : q.heapLimit ≤ q.stackLimit
  /-- Room for what was on the stack and for what was still free. -/
  window : (q.top : Int) - q.stackLimit.toNat = p.top - p.sp.toNat + gap p.stackLimit p.sp
  room : gap q.stackLimit q.sp = gap p.stackLimit p.sp

/-- The code size that a move works out. -/
def Process.codeSize (p : Process) : Int :=
  p.allocatedMemory - p.heapSize - VMconf.programStackSizeBytes

/-- Every value that a move to `base` computes is in the range of its type. -/
structure Process.NoWrap (p : Process) (base : MemAddr) : Prop where
  codeSize : 0 ≤ p.codeSize
  heapStart : base.toNat + p.codeSize < 65536
  memory : p.allocatedMemory + p.heapSize < 18446744073709551616
  pc : 0 ≤ base.toNat + gap p.firstSector p.pc ∧ base.toNat + gap p.firstSector p.pc < 65536
  sp : 0 ≤ base.toNat + gap p.firstSector p.sp ∧ base.toNat + gap p.firstSector p.sp < 65536
  stackLimit : (VMconf.programStackSizeBytes : Int) ≤ base.toNat + gap p.firstSector p.sp
  heapLimit : base.toNat + p.codeSize + p.heapSize < 65536

/-- Nothing wraps in any of the moves. -/
def Process.NoWraps : Process → List MemAddr → Prop
  | _, [] => True
  | p, base :: bases => p.NoWrap base ∧ (p.update base).NoWraps bases

/-! ### What moves come to -/

/-- `q` is where `n` moves bring `p`, a process with `size` bytes of code. -/
structure Drifted (size : Nat) (p : Process) (n : Nat) (q : Process) : Prop where
  allocated : q.allocatedMemory = size + 2000 + 1000 * n
  code : q.lastCodeSector.toNat = q.firstSector.toNat + size + 1000 * (n - 1)
  heapStart : q.heapStart = q.lastCodeSector
  heapLimit : q.heapLimit.toNat = q.heapStart.toNat + 1000
  pc : gap q.firstSector q.pc = gap p.firstSector p.pc
  sp : gap q.firstSector q.sp = gap p.firstSector p.sp
  stackLimit : 0 < n → gap q.stackLimit q.sp = 1000

theorem drifted_refl {size : Nat} {p : Process} (h : Loaded size p) : Drifted size p 0 p where
  allocated := h.allocated
  code := h.lastCodeSector
  heapStart := UInt16.toNat_inj.mp (h.heapStart.trans h.lastCodeSector.symm)
  heapLimit := by rw [h.heapLimit, h.heapStart]
  pc := rfl
  sp := rfl
  stackLimit hn := absurd hn (Nat.lt_irrefl 0)

/-- `base + (a - old_fs)`, where it does not wrap. -/
theorem gap_moved {base first a : MemAddr} (hlow : 0 ≤ base.toNat + gap first a)
    (hhigh : base.toNat + gap first a < 65536) : gap base (base + (a - first)) = gap first a := by
  have hfirst := first.toNat_lt
  have ha := a.toNat_lt
  unfold gap at *
  rw [UInt16.toNat_add, UInt16.toNat_sub]
  omega

theorem toSize_of_range {n : Int} (hlow : 0 ≤ n) (hhigh : n < 18446744073709551616) :
    (toSize n : Int) = n := by
  unfold toSize
  omega

section
variable {size n : Nat} {p q : Process}

theorem Drifted.heapSize (h : Drifted size p n q) : q.heapSize = 1000 := by
  unfold Process.heapSize
  have hlimit := h.heapLimit
  omega

theorem Drifted.codeSize (h : Drifted size p n q) : q.codeSize = size + 1000 * n := by
  have hcap : VMconf.programStackSizeBytes = 1000 := rfl
  unfold Process.codeSize
  rw [h.heapSize, h.allocated, hcap]
  omega

/-- One more move: the memory grows by the heap, and so does the code at the next one. -/
theorem drifted_update {base : MemAddr} (h : Drifted size p n q) (hw : q.NoWrap base) :
    Drifted size p (n + 1) (q.update base) := by
  have hcap : VMconf.programStackSizeBytes = 1000 := rfl
  have hbase := base.toNat_lt
  have hheap := h.heapSize
  have hcode := h.codeSize
  have hfits := hw.heapStart
  have hend := hw.heapLimit
  have hroom := hw.stackLimit
  have hmemory := hw.memory
  rw [hcode] at hfits hend
  rw [hheap] at hend hmemory
  -- the code size that the move works out, and the place it gives the heap
  have hsize : toSize (q.allocatedMemory - q.heapSize - VMconf.programStackSizeBytes) = size + 1000 * n := by
    have := (toSize_of_range hw.codeSize (by rw [hcode]; omega)).trans hcode
    exact Int.ofNat_inj.mp (by exact_mod_cast this)
  have hstart : (UInt16.ofNat (base.toNat +
      toSize (q.allocatedMemory - q.heapSize - VMconf.programStackSizeBytes))).toNat =
      base.toNat + size + 1000 * n := by
    rw [hsize, UInt16.toNat_ofNat']
    omega
  have hsp : gap base (base + (q.sp - q.firstSector)) = gap q.firstSector q.sp := gap_moved hw.sp.1 hw.sp.2
  refine ⟨?_, hstart, rfl, ?_, (gap_moved hw.pc.1 hw.pc.2).trans h.pc, hsp.trans h.sp, fun _ => ?_⟩
  · have := toSize_of_range (n := q.allocatedMemory + q.heapSize) (by omega) (by omega)
    show toSize (q.allocatedMemory + q.heapSize) = _
    have hallocated := h.allocated
    omega
  · have hlimit := h.heapLimit
    have hlt := q.heapLimit.toNat_lt
    show (UInt16.ofNat _ + (q.heapLimit - q.heapStart)).toNat = (UInt16.ofNat _).toNat + 1000
    rw [UInt16.toNat_add, UInt16.toNat_sub, hstart]
    omega
  · unfold gap at hsp hroom ⊢
    show ((base + (q.sp - q.firstSector)).toNat : Int) -
      (base + (q.sp - q.firstSector) - UInt16.ofNat VMconf.programStackSizeBytes).toNat = 1000
    rw [UInt16.toNat_sub, hcap, UInt16.toNat_ofNat']
    have hlt := (base + (q.sp - q.firstSector)).toNat_lt
    omega

theorem drifted_updates {bases : List MemAddr} (h : Drifted size p n q) (hw : q.NoWraps bases) :
    Drifted size p (n + bases.length) (bases.foldl Process.update q) := by
  induction bases generalizing n q with
  | nil => exact h
  | cons base bases ih =>
    rw [List.length_cons, Nat.add_comm bases.length, ← Nat.add_assoc]
    exact ih (drifted_update h hw.1) hw.2

end

/-! ### The layout after moves -/

/-- Any move at all leaves too much room above SP. -/
theorem Drifted.window {size n : Nat} {p q : Process} (hl : Loaded size p) (h : Drifted size p n q) :
    (q.top : Int) - q.sp.toNat = p.top - p.sp.toNat + 1000 * n := by
  have hsp := h.sp
  have htop := hl.top
  unfold gap at hsp
  rw [htop, Process.top, h.allocated]
  omega

/-- What is kept whatever the moves, and when the rest is. -/
theorem Drifted.parts {size n : Nat} {p q : Process} (hl : Loaded size p) (h : Drifted size p n q)
    (hpos : 0 < n) :
    (gap q.firstSector q.pc = gap p.firstSector p.pc ∧ gap q.firstSector q.sp = gap p.firstSector p.sp ∧
      gap q.heapStart q.heapLimit = gap p.heapStart p.heapLimit ∧ q.heapStart = q.lastCodeSector) ∧
    (gap q.firstSector q.lastCodeSector = gap p.firstSector p.lastCodeSector ↔ n = 1) ∧
    (q.heapLimit ≤ q.stackLimit ↔ p.top + 1000 * (n - 1) ≤ p.sp.toNat) ∧
    (gap q.stackLimit q.sp = gap p.stackLimit p.sp ↔ p.sp.toNat = p.top) := by
  have hcode := h.code
  have hheap := h.heapLimit
  have hsp := h.sp
  have hroom := h.stackLimit hpos
  have htop := hl.top
  have hlast := hl.lastCodeSector
  have hstart := hl.heapStart
  have hlimit := hl.heapLimit
  have hstack := hl.stackLimit
  have hsame := h.heapStart
  rw [hsame] at hheap
  refine ⟨⟨h.pc, hsp, ?_, hsame⟩, ?_, ?_, ?_⟩
  · unfold gap
    rw [hsame]
    omega
  · unfold gap
    omega
  · rw [UInt16.le_iff_toNat_le]
    unfold gap at hsp hroom
    omega
  · rw [hroom]
    unfold gap
    omega

/-- **A moved process is laid out as before only if it was never moved**: the memory of
the process grows by the heap with every move. -/
theorem updates_keep_layout {vm : VM} {before after : List Process} {proc : Process}
    (hs : Session vm (before ++ proc :: after)) {cin : Stdin} {handle : Window} {events : List WindowEvent}
    {m : Machine} (hrun : Machine.system.Reaches (.boot vm proc cin handle events) m)
    {bases : List MemAddr} (hw : m.proc.NoWraps bases) :
    m.proc.KeepsLayout (bases.foldl Process.update m.proc) ↔ bases = [] := by
  obtain ⟨size, hl⟩ := hs.sound.loaded proc (by simp)
  have hlm : Loaded size m.proc := (Machine.keeps_reaches hrun).layout.loaded hl
  constructor
  · intro h
    have hd := drifted_updates (drifted_refl hlm) hw
    have hlonger := hd.window hlm
    have hwindow := h.window
    have hroom := h.room
    unfold gap at hwindow hroom
    have hzero : bases.length = 0 := by omega
    exact List.eq_nil_of_length_eq_zero hzero
  · rintro rfl
    have hstart : m.proc.heapStart = m.proc.lastCodeSector :=
      UInt16.toNat_inj.mp (hlm.heapStart.trans hlm.lastCodeSector.symm)
    have hlimit : m.proc.heapLimit = m.proc.stackLimit :=
      UInt16.toNat_inj.mp (hlm.heapLimit.trans hlm.stackLimit.symm)
    refine ⟨rfl, rfl, rfl, rfl, hstart, UInt16.le_of_eq hlimit, ?_, rfl⟩
    show (m.proc.top : Int) - m.proc.stackLimit.toNat =
      m.proc.top - m.proc.sp.toNat + gap m.proc.stackLimit m.proc.sp
    unfold gap
    omega

/-- `HALT`. -/
def haltOnly : List MemCell := [0, 2, 0xFF]

theorem haltOnly_noWraps : (freshProcess haltOnly).NoWraps [500] :=
  ⟨⟨by decide, by decide, by decide, by decide, by decide, by decide, by decide⟩, trivial⟩

theorem updates_keep_layout_halt :
    (freshProcess haltOnly).KeepsLayout ([500].foldl Process.update (freshProcess haltOnly)) ↔
      ([500] : List MemAddr) = [] :=
  updates_keep_layout
    (show Session (freshVM haltOnly) ([] ++ freshProcess haltOnly :: []) from
      .load haltOnly .fresh (load_fresh (by decide)))
    (m := .boot (freshVM haltOnly) (freshProcess haltOnly) ⟨[], false⟩ .null []) (.refl _) haltOnly_noWraps

/-- Moved to 500, the process ends at 3503 instead of 2503. -/
theorem moved_apart : Session (freshVM haltOnly) [freshProcess haltOnly] ∧
    (freshProcess haltOnly).NoWraps [500] ∧
    (freshProcess haltOnly).top = 2003 ∧ ((freshProcess haltOnly).update 500).top = 3503 ∧
    ¬ (freshProcess haltOnly).KeepsLayout ((freshProcess haltOnly).update 500) := by
  refine ⟨.load haltOnly .fresh (load_fresh (by decide)), haltOnly_noWraps, by decide, by decide, fun h => ?_⟩
  exact absurd h.window (by decide)

end CustomIsaVm
