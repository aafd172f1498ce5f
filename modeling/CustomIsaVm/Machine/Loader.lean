import CustomIsaVm.Machine.Decode

/-! Loading programs.

`MemoryManager.allocate` takes the first free block that is large enough from its
front, `VM.load` copies the image there, reads the entry point from its first two
bytes and writes the header of one free heap block behind the code. A `Session`
is what can happen to a VM: programs are loaded and run, in any order.

`Loaded` is the layout of a process, in numbers that do not wrap. In every
session each process is `Loaded`, and the segments and the free blocks are apart
from each other and below the GUI flag (`Session.sound`). -/
namespace CustomIsaVm

/-! ### The allocator -/

namespace MemoryManager

/-- `MemoryManager::allocate`; `none` is the exception it raises. -/
def allocate (bytes : Nat) : List MemoryBlock → Option (MemAddr × List MemoryBlock)
  | [] => none
  | b :: rest =>
    if bytes ≤ b.size then
      let size := b.size - bytes
      let startAddress := b.startAddress + UInt16.ofNat bytes
      some (b.startAddress, if size = 0 then rest else ⟨startAddress, size⟩ :: rest)
    else (allocate bytes rest).map fun (a, rest') => (a, b :: rest')

end MemoryManager

/-! ### The loader -/

/-- The bytes are stored one after another from cell `i` on. -/
def writeBytes (ram : Nat → MemCell) (i : Nat) : List MemCell → Nat → MemCell
  | [] => ram
  | b :: bytes => writeBytes (Function.update ram i b) (i + 1) bytes

/-- Why loading fails: the allocator's exception, or a store past the end of RAM. -/
inductive LoadError where
  | allocation (bytes : Nat)
  | undefined
  deriving DecidableEq, Repr

/-- The message of the allocator's exception. -/
def LoadError.what : LoadError → String
  | allocation bytes => "Allocation of " ++ toString bytes ++ " bytes failed."
  | undefined => ""

/-- The first heap header: one free block. -/
def heapHeader : List MemCell :=
  [highByte VMconf.programHeapStartingSizeBytes, lowByte VMconf.programHeapStartingSizeBytes,
    HeapReg.free.toByte]

/-- `Loader::load_program`, given the bytes of the file. -/
def VM.load (vm : VM) (bytecode : List MemCell) : Except LoadError (Process × VM) :=
  let totalProgramSize :=
    bytecode.length + VMconf.programHeapStartingSizeBytes + VMconf.programStackSizeBytes
  match MemoryManager.allocate totalProgramSize vm.freeList with
  | none => .error (.allocation totalProgramSize)
  | some (firstSector, freeList) =>
    if firstSector.toNat + bytecode.length + heapHeaderBlockSize ≤ ramSize then
      let ram := writeBytes vm.ram firstSector.toNat bytecode
      let entryPoint := word (ram firstSector.toNat) (ram (firstSector.toNat + 1))
      .ok (Process.create vm.nextReadyPid firstSector bytecode.length entryPoint,
        {vm with
          ram := writeBytes ram (firstSector.toNat + bytecode.length) heapHeader
          freeList := freeList
          nextReadyPid := vm.nextReadyPid + 1})
    else .error .undefined

/-- `VM::reset`: RAM and the last key are left as they are. -/
def VM.reset (vm : VM) : VM :=
  {vm with
    zero := false
    sign := false
    registers := fun _ => 0
    freeList := [⟨0, ramSize - VMconf.framebufferTotSize - 1⟩]
    nextReadyPid := 1}

/-- What can happen to a VM, with the processes it has been given so far: a program
is loaded, or one of them is run for some number of instructions, whatever its
input, the window and the GUI flag. A process that ran is as the run left it; a
caller that sees the run end finds its PC pushed back, and a window that waited to be
closed may have reported one more key. After a reset no earlier process may be run. -/
inductive Session : VM → List Process → Prop
  | fresh : Session VM.fresh []
  | setGui {vm : VM} {procs : List Process} (guiStatus : Bool) (h : Session vm procs) :
      Session (vm.setGui guiStatus) procs
  | reset {vm : VM} {procs : List Process} (h : Session vm procs) : Session vm.reset []
  | load {vm vm' : VM} {procs : List Process} {proc : Process} (bytecode : List MemCell)
      (h : Session vm procs) (hload : vm.load bytecode = .ok (proc, vm')) : Session vm' (proc :: procs)
  | run {vm : VM} {before after : List Process} {proc : Process} {m : Machine} (cin : Stdin)
      (handle : Window) (events : List WindowEvent) (h : Session vm (before ++ proc :: after))
      (hrun : Machine.system.Reaches (.boot vm proc cin handle events) m) :
      Session m.toVM (before ++ m.proc :: after)
  | leave {vm : VM} {before after : List Process} {proc : Process} (key : Option UInt8)
      (h : Session vm (before ++ proc :: after)) :
      Session {vm with lastKey := key.getD vm.lastKey} (before ++ proc.pushBack :: after)

/-! ### Storing bytes -/

theorem writeBytes_below {ram : Nat → MemCell} {i j : Nat} {bytes : List MemCell} (h : j < i) :
    writeBytes ram i bytes j = ram j := by
  induction bytes generalizing ram i with
  | nil => rfl
  | cons b bytes ih =>
    rw [writeBytes, ih (by omega), Function.update_of_ne (by omega)]

theorem writeBytes_above {ram : Nat → MemCell} {i j : Nat} {bytes : List MemCell}
    (h : i + bytes.length ≤ j) : writeBytes ram i bytes j = ram j := by
  induction bytes generalizing ram i with
  | nil => rfl
  | cons b bytes ih =>
    rw [List.length_cons] at h
    rw [writeBytes, ih (by omega), Function.update_of_ne (by omega)]

theorem holds_writeBytes (ram : Nat → MemCell) (i : Nat) (bytes : List MemCell) :
    Holds (writeBytes ram i bytes) i bytes := by
  induction bytes generalizing ram i with
  | nil => trivial
  | cons b bytes ih =>
    refine ⟨?_, ih _ _⟩
    rw [writeBytes, writeBytes_below (by omega), Function.update_self]

/-! ### The layout of a process -/

/-- A process whose code is `size` bytes long, laid out in RAM: code, heap and
stack one after the other, all of it below the GUI flag. -/
structure Loaded (size : Nat) (p : Process) : Prop where
  fits : p.firstSector.toNat + (size + 2000) ≤ guiFlag
  allocated : p.allocatedMemory = size + 2000
  lastCodeSector : p.lastCodeSector.toNat = p.firstSector.toNat + size
  heapStart : p.heapStart.toNat = p.firstSector.toNat + size
  heapLimit : p.heapLimit.toNat = p.firstSector.toNat + size + 1000
  stackLimit : p.stackLimit.toNat = p.firstSector.toNat + size + 1000

/-- `first_sector + allocated_memory`. -/
def Process.top (p : Process) : Nat := p.firstSector.toNat + p.allocatedMemory

/-- The segment of a process, `[first_sector, first_sector + allocated_memory)`. -/
def Process.Segment (p : Process) (i : Nat) : Prop := p.firstSector.toNat ≤ i ∧ i < p.top

theorem Process.SameLayout.loaded {p q : Process} {size : Nat} (h : p.SameLayout q)
    (hp : Loaded size p) : Loaded size q := by
  obtain ⟨_, hf, hl, _, ha, hs, ht, hh⟩ := h
  exact ⟨by rw [hf]; exact hp.fits, by rw [ha]; exact hp.allocated, by rw [hl, hf]; exact hp.lastCodeSector,
    by rw [hs, hf]; exact hp.heapStart, by rw [hh, hf]; exact hp.heapLimit,
    by rw [ht, hf]; exact hp.stackLimit⟩

theorem Process.SameLayout.top {p q : Process} (h : p.SameLayout q) : q.top = p.top := by
  rw [Process.top, Process.top, h.firstSector, h.allocatedMemory]

theorem Process.SameLayout.segment {p q : Process} (h : p.SameLayout q) (i : Nat) :
    q.Segment i ↔ p.Segment i := by
  rw [Process.Segment, Process.Segment, h.top, h.firstSector]

theorem Loaded.top {p : Process} {size : Nat} (h : Loaded size p) :
    p.top = p.firstSector.toNat + size + 2000 := by
  rw [Process.top, h.allocated]
  omega

theorem loaded_create (pid : Nat) (base : MemAddr) (size : Nat) (entryPoint : MemAddr)
    (h : base.toNat + (size + 2000) ≤ guiFlag) : Loaded size (Process.create pid base size entryPoint) := by
  have hflag : guiFlag = 59903 := rfl
  have hheap : VMconf.programHeapStartingSizeBytes = 1000 := rfl
  have hstack : VMconf.programStackSizeBytes = 1000 := rfl
  refine ⟨h, ?_, ?_, ?_, ?_, ?_⟩ <;>
    simp only [Process.create, hheap, hstack, UInt16.toNat_ofNat', UInt16.toNat_sub] <;> omega

/-- SP starts at the top of the segment. -/
theorem create_sp (pid : Nat) (base : MemAddr) (size : Nat) (entryPoint : MemAddr)
    (h : base.toNat + (size + 2000) ≤ guiFlag) :
    (Process.create pid base size entryPoint).sp.toNat = (Process.create pid base size entryPoint).top := by
  have hflag : guiFlag = 59903 := rfl
  have hheap : VMconf.programHeapStartingSizeBytes = 1000 := rfl
  have hstack : VMconf.programStackSizeBytes = 1000 := rfl
  simp only [Process.top, Process.create, hheap, hstack, UInt16.toNat_ofNat']
  omega

/-! ### What the allocator returns -/

/-- Two ranges of RAM, each given by its start and its end, do not overlap. -/
def Apart (a b : Nat × Nat) : Prop := a.2 ≤ b.1 ∨ b.2 ≤ a.1

theorem Apart.symm {a b : Nat × Nat} (h : Apart a b) : Apart b a := Or.symm h

/-- A part of a range is apart from what the range is apart from. -/
theorem Apart.mono {a b c : Nat × Nat} (h : Apart a b) (h₁ : a.1 ≤ c.1) (h₂ : c.2 ≤ a.2) : Apart c b := by
  unfold Apart at h ⊢
  omega

def MemoryBlock.range (b : MemoryBlock) : Nat × Nat := (b.startAddress.toNat, b.startAddress.toNat + b.size)

def Process.range (p : Process) : Nat × Nat := (p.firstSector.toNat, p.top)

/-- The block an allocation takes its bytes from, and what it leaves of it. -/
theorem MemoryManager.allocate_some {bytes : Nat} {free free' : List MemoryBlock} {a : MemAddr}
    (h : MemoryManager.allocate bytes free = some (a, free')) : ∃ before b after,
      free = before ++ b :: after ∧ bytes ≤ b.size ∧ a = b.startAddress ∧
      free' = before ++ ((if b.size - bytes = 0 then []
        else [⟨b.startAddress + UInt16.ofNat bytes, b.size - bytes⟩]) ++ after) := by
  induction free generalizing free' with
  | nil => cases h
  | cons b rest ih =>
    rw [MemoryManager.allocate] at h
    split at h
    next hle =>
      cases h
      refine ⟨[], b, rest, rfl, hle, rfl, ?_⟩
      split <;> rfl
    next =>
      simp only [Option.map_eq_some_iff, Prod.exists, Prod.mk.injEq] at h
      obtain ⟨a', rest', hrest, rfl, rfl⟩ := h
      obtain ⟨before, c, after, rfl, hle, ha, rfl⟩ := ih hrest
      exact ⟨b :: before, c, after, rfl, hle, ha, rfl⟩

/-! ### Sessions -/

/-- The ranges in use or free. -/
def ranges (free : List MemoryBlock) (procs : List Process) : List (Nat × Nat) :=
  procs.map Process.range ++ free.map MemoryBlock.range

/-- Every process is laid out as the loader lays it out, and nothing overlaps. -/
structure Sound (free : List MemoryBlock) (procs : List Process) : Prop where
  loaded : ∀ p ∈ procs, ∃ size, Loaded size p
  bounded : ∀ r ∈ ranges free procs, r.2 ≤ guiFlag
  apart : (ranges free procs).Pairwise Apart

theorem sound_fresh : Sound [⟨0, ramSize - VMconf.framebufferTotSize - 1⟩] [] where
  loaded p hp := by cases hp
  bounded r hr := by
    simp only [ranges, List.map_nil, List.map_cons, List.nil_append, List.mem_singleton] at hr
    subst hr
    exact Nat.le_refl _
  apart := List.pairwise_singleton _ _

/-- A range may be cut into parts that are apart from each other. -/
theorem pairwise_parts {l₁ l₂ parts : List (Nat × Nat)} {r : Nat × Nat}
    (h : (l₁ ++ r :: l₂).Pairwise Apart) (hone : parts.Pairwise Apart)
    (hin : ∀ s ∈ parts, r.1 ≤ s.1 ∧ s.2 ≤ r.2) : (l₁ ++ (parts ++ l₂)).Pairwise Apart := by
  obtain ⟨h₁, h₂, hcross⟩ := List.pairwise_append.mp h
  obtain ⟨hr, h₂⟩ := List.pairwise_cons.mp h₂
  have hparts : ∀ s ∈ parts, ∀ t, Apart r t → Apart s t := fun s hs t ht =>
    ht.mono (hin s hs).1 (hin s hs).2
  refine List.pairwise_append.mpr ⟨h₁, List.pairwise_append.mpr ⟨hone, h₂, ?_⟩, ?_⟩
  · exact fun s hs t ht => hparts s hs t (hr t ht)
  · intro t ht s hs
    rcases List.mem_append.mp hs with hs | hs
    · exact (hparts s hs t (hcross t ht r (List.mem_cons_self ..)).symm).symm
    · exact hcross t ht s (List.mem_cons_of_mem r hs)

/-- An allocation cuts a free block into the segment and what is left of the block. -/
theorem sound_allocate {free free' : List MemoryBlock} {procs : List Process} {p : Process}
    (h : Sound free procs) (hsize : ∃ size, Loaded size p)
    (ha : MemoryManager.allocate p.allocatedMemory free = some (p.firstSector, free')) :
    Sound free' (p :: procs) := by
  have hflag : guiFlag = 59903 := rfl
  obtain ⟨before, b, after, rfl, hle, hb, hfree'⟩ := MemoryManager.allocate_some ha
  have hbound : b.range.2 ≤ guiFlag := h.bounded _ (by simp [ranges])
  have hold : ranges (before ++ b :: after) procs =
      (procs.map Process.range ++ before.map MemoryBlock.range) ++
        b.range :: after.map MemoryBlock.range := by
    simp [ranges]
  obtain ⟨rest, hnew, hone, hin⟩ : ∃ rest : List (Nat × Nat),
      free'.map MemoryBlock.range =
        before.map MemoryBlock.range ++ (rest ++ after.map MemoryBlock.range) ∧
      (p.range :: rest).Pairwise Apart ∧ ∀ s ∈ p.range :: rest, b.range.1 ≤ s.1 ∧ s.2 ≤ b.range.2 := by
    have hstart : (b.startAddress + UInt16.ofNat p.allocatedMemory).toNat =
        b.startAddress.toNat + p.allocatedMemory := by
      simp only [MemoryBlock.range] at hbound
      rw [UInt16.toNat_add, UInt16.toNat_ofNat']
      omega
    have hp : b.range.1 ≤ p.range.1 ∧ p.range.2 ≤ b.range.2 := by
      simp only [MemoryBlock.range, Process.range, Process.top, hb]
      omega
    split at hfree'
    · exact ⟨[], by rw [hfree']; simp, List.pairwise_singleton _ _, by simpa using hp⟩
    · refine ⟨[(⟨b.startAddress + UInt16.ofNat p.allocatedMemory, b.size - p.allocatedMemory⟩ :
        MemoryBlock).range], by rw [hfree']; simp, ?_, ?_⟩
      · simp only [List.pairwise_cons, List.mem_singleton, forall_eq, List.not_mem_nil,
          false_implies, implies_true, List.Pairwise.nil, and_true]
        left
        simp only [MemoryBlock.range, Process.range, Process.top, hb, hstart]
        exact Nat.le_refl _
      · intro s hs
        rcases List.mem_cons.mp hs with rfl | hs
        · exact hp
        · rw [List.mem_singleton] at hs
          subst hs
          simp only [MemoryBlock.range, hstart]
          omega
  have hperm : (ranges free' (p :: procs)).Perm ((procs.map Process.range ++
      before.map MemoryBlock.range) ++ ((p.range :: rest) ++ after.map MemoryBlock.range)) := by
    rw [ranges, hnew, List.map_cons, List.cons_append, List.cons_append, ← List.append_assoc]
    exact List.perm_middle.symm
  refine ⟨?_, ?_, ?_⟩
  · intro q hq
    rcases List.mem_cons.mp hq with rfl | hq
    · exact hsize
    · exact h.loaded q hq
  · intro r hr
    have hr' := hperm.subset hr
    rcases List.mem_append.mp hr' with hr' | hr'
    · exact h.bounded r (by rw [hold]; exact List.mem_append_left _ hr')
    · rcases List.mem_append.mp hr' with hr' | hr'
      · exact (hin r hr').2.trans hbound
      · exact h.bounded r (by rw [hold]; exact List.mem_append_right _ (List.mem_cons_of_mem _ hr'))
  · refine (hperm.pairwise_iff fun h => h.symm).mpr (pairwise_parts ?_ hone hin)
    rw [← hold]
    exact h.apart

/-- A process may be exchanged for one of the same layout. -/
theorem sound_replace {free : List MemoryBlock} {before after : List Process} {p q : Process}
    (h : Sound free (before ++ p :: after)) (hpq : p.SameLayout q) : Sound free (before ++ q :: after) := by
  have hrange : q.range = p.range := by
    rw [Process.range, Process.range, hpq.top, hpq.firstSector]
  have hranges : ranges free (before ++ q :: after) = ranges free (before ++ p :: after) := by
    simp [ranges, hrange]
  refine ⟨fun r hr => ?_, by rw [hranges]; exact h.bounded, by rw [hranges]; exact h.apart⟩
  rcases List.mem_append.mp hr with hr | hr
  · exact h.loaded r (List.mem_append_left _ hr)
  · rcases List.mem_cons.mp hr with rfl | hr
    · obtain ⟨size, hp⟩ := h.loaded p (by simp)
      exact ⟨size, hpq.loaded hp⟩
    · exact h.loaded r (by simp [hr])

/-- A successful load, taken apart. -/
theorem load_ok {vm vm' : VM} {bytecode : List MemCell} {p : Process}
    (h : vm.load bytecode = .ok (p, vm')) : ∃ firstSector,
      MemoryManager.allocate (bytecode.length + 2000) vm.freeList = some (firstSector, vm'.freeList) ∧
      (∃ entryPoint, p = Process.create vm.nextReadyPid firstSector bytecode.length entryPoint) ∧
      vm'.ram = writeBytes (writeBytes vm.ram firstSector.toNat bytecode)
        (firstSector.toNat + bytecode.length) heapHeader := by
  unfold VM.load at h
  dsimp only at h
  split at h
  · cases h
  · rename_i firstSector freeList heq
    split at h
    · cases h
      exact ⟨firstSector, heq, ⟨_, rfl⟩, rfl⟩
    · cases h

/-- The process a load returns where the allocator gives it `firstSector`. -/
def VM.placedProcess (vm : VM) (firstSector : MemAddr) (bytecode : List MemCell) : Process :=
  let ram := writeBytes vm.ram firstSector.toNat bytecode
  Process.create vm.nextReadyPid firstSector bytecode.length
    (word (ram firstSector.toNat) (ram (firstSector.toNat + 1)))

/-- The VM as such a load leaves it. -/
def VM.placed (vm : VM) (firstSector : MemAddr) (freeList : List MemoryBlock) (bytecode : List MemCell) : VM :=
  {vm with
    ram := writeBytes (writeBytes vm.ram firstSector.toNat bytecode) (firstSector.toNat + bytecode.length)
      heapHeader
    freeList := freeList
    nextReadyPid := vm.nextReadyPid + 1}

theorem load_placed {vm : VM} {bytecode : List MemCell} {firstSector : MemAddr}
    {freeList : List MemoryBlock}
    (h : MemoryManager.allocate (bytecode.length + 2000) vm.freeList = some (firstSector, freeList))
    (hfit : firstSector.toNat + bytecode.length + heapHeaderBlockSize ≤ ramSize) :
    vm.load bytecode = .ok (vm.placedProcess firstSector bytecode, vm.placed firstSector freeList bytecode) := by
  have htotal : bytecode.length + VMconf.programHeapStartingSizeBytes + VMconf.programStackSizeBytes =
      bytecode.length + 2000 := by
    rw [Nat.add_assoc]
    rfl
  simp only [VM.load, htotal, h, if_pos hfit]
  rfl

/-- What RAM holds after a load: the image, one free heap block, and the rest as it was. -/
structure LoadedRam (bytecode : List MemCell) (base : Nat) (ram ram' : Nat → MemCell) : Prop where
  image : Holds ram' base bytecode
  heap : Holds ram' (base + bytecode.length) heapHeader
  kept : ∀ i, i < base ∨ base + bytecode.length + heapHeaderBlockSize ≤ i → ram' i = ram i

theorem load_ram {vm vm' : VM} {bytecode : List MemCell} {p : Process}
    (h : vm.load bytecode = .ok (p, vm')) :
    LoadedRam bytecode p.firstSector.toNat vm.ram vm'.ram := by
  obtain ⟨firstSector, _, ⟨entryPoint, rfl⟩, hram⟩ := load_ok h
  show LoadedRam bytecode firstSector.toNat vm.ram vm'.ram
  rw [hram]
  refine ⟨?_, holds_writeBytes _ _ _, fun i hi => ?_⟩
  · refine (holds_writeBytes _ _ _).congr fun j _ hj => writeBytes_below hj
  · have hlen : heapHeader.length = heapHeaderBlockSize := rfl
    rcases hi with hi | hi
    · rw [writeBytes_below (by omega), writeBytes_below hi]
    · rw [writeBytes_above (by omega), writeBytes_above (by omega)]

/-- The process a fresh VM gives for an image. -/
def freshProcess (bytecode : List MemCell) : Process := VM.fresh.placedProcess 0 bytecode

/-- The VM a fresh VM becomes by loading an image. -/
def freshVM (bytecode : List MemCell) : VM :=
  VM.fresh.placed 0 (if guiFlag - (bytecode.length + 2000) = 0 then []
    else [⟨UInt16.ofNat (bytecode.length + 2000), guiFlag - (bytecode.length + 2000)⟩]) bytecode

/-- A fresh VM loads every image that fits, at address 0. -/
theorem load_fresh {bytecode : List MemCell} (h : bytecode.length + 2000 ≤ guiFlag) :
    VM.fresh.load bytecode = .ok (freshProcess bytecode, freshVM bytecode) := by
  have hflag : guiFlag = 59903 := rfl
  have hram : ramSize = 64000 := rfl
  have hblock : heapHeaderBlockSize = 3 := rfl
  have hsize : ramSize - VMconf.framebufferTotSize - 1 = guiFlag := rfl
  refine load_placed ?_ (by rw [UInt16.toNat_zero]; omega)
  simp only [VM.fresh, MemoryManager.allocate, hsize, if_pos h, UInt16.zero_add]

/-- **Whatever happens to a VM, its processes stay laid out and apart.** -/
theorem Session.sound {vm : VM} {procs : List Process} (h : Session vm procs) :
    Sound vm.freeList procs := by
  induction h with
  | fresh => exact sound_fresh
  | setGui _ _ ih => exact ih
  | reset _ _ => exact sound_fresh
  | @load vm vm' procs proc bytecode _ hload ih =>
    obtain ⟨firstSector, ha, ⟨entryPoint, rfl⟩, _⟩ := load_ok hload
    refine sound_allocate ih ⟨bytecode.length, loaded_create _ _ _ _ ?_⟩ ha
    obtain ⟨before, b, after, hfree, hle, rfl, _⟩ := MemoryManager.allocate_some ha
    have hbound : b.range.2 ≤ guiFlag := ih.bounded _ (by simp [ranges, hfree])
    exact (Nat.add_le_add_left hle _).trans hbound
  | @run vm before after proc m cin handle events _ hrun ih =>
    have hkeeps := Machine.keeps_reaches hrun
    rw [show m.freeList = vm.freeList from hkeeps.freeList]
    exact sound_replace ih hkeeps.layout
  | leave _ _ ih => exact sound_replace ih ⟨rfl, rfl, rfl, rfl, rfl, rfl, rfl, rfl⟩

/-- A loaded process starts at the entry point that the image names, with an empty stack. -/
theorem load_entry {vm vm' : VM} {high low : MemCell} {bytecode : List MemCell} {p : Process}
    (h : vm.load (high :: low :: bytecode) = .ok (p, vm')) : p.running = true ∧
      p.pc = p.firstSector + word high low ∧
      p.sp = p.firstSector + UInt16.ofNat ((high :: low :: bytecode).length + 2000) := by
  have htotal : (high :: low :: bytecode).length + VMconf.programHeapStartingSizeBytes +
      VMconf.programStackSizeBytes = (high :: low :: bytecode).length + 2000 := by
    rw [Nat.add_assoc]
    rfl
  unfold VM.load at h
  dsimp only at h
  split at h
  · cases h
  · rename_i firstSector freeList heq
    split at h
    · cases h
      obtain ⟨hhigh, hlow, _⟩ := holds_writeBytes vm.ram firstSector.toNat (high :: low :: bytecode)
      refine ⟨rfl, ?_, ?_⟩
      · show firstSector + word _ _ = firstSector + word high low
        rw [hhigh, hlow]
      · show UInt16.ofNat (firstSector.toNat + _) = firstSector + _
        rw [htotal, UInt16.ofNat_add, UInt16.ofNat_toNat]
    · cases h

/-- The process a load returns is laid out, and its stack is empty. -/
theorem Session.load_loaded {vm vm' : VM} {procs : List Process} {bytecode : List MemCell} {p : Process}
    (h : Session vm procs) (hload : vm.load bytecode = .ok (p, vm')) :
    Loaded bytecode.length p ∧ p.sp.toNat = p.top := by
  obtain ⟨firstSector, ha, ⟨entryPoint, rfl⟩, _⟩ := load_ok hload
  obtain ⟨before, b, after, hfree, hle, rfl, _⟩ := MemoryManager.allocate_some ha
  have hbound : b.range.2 ≤ guiFlag := h.sound.bounded _ (by simp [ranges, hfree])
  have hfits := (Nat.add_le_add_left hle _).trans hbound
  exact ⟨loaded_create _ _ _ _ hfits, create_sp _ _ _ _ hfits⟩

end CustomIsaVm
