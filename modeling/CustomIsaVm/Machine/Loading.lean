import CustomIsaVm.Lib.Effect
import CustomIsaVm.Machine.Allocator

/-! Loading any number of programs.

`loadProgram` is `Loader::load_program` store by store, so that a load that throws
leaves behind what it had done so far. In a session it comes to what `VM.load` says
(`loadProgram_ok_iff`), and it throws for lack of space only, before its first store
(`loadProgram_error`). A sequence of loads, some of which may fail, keeps every image
where it was put (`loading_safe`). -/
namespace CustomIsaVm
open Effect

/-! ### load_program -/

abbrev Load (α : Type) := EStateM LoadError VM α

namespace Loader

/-- `manager.allocate(bytes)`: the list changes only where a block is found. -/
def allocate (bytes : Nat) : Load MemAddr := fun vm =>
  match MemoryManager.allocate bytes vm.freeList with
  | some (a, freeList) => .ok a {vm with freeList := freeList}
  | none => .error (.allocation bytes) vm

/-- `RAM[i] = v`. -/
def store (i : Nat) (v : MemCell) : Load Unit := fun vm =>
  if i < ramSize then .ok () {vm with ram := Function.update vm.ram i v} else .error .undefined vm

/-- `RAM[i]`, read. -/
def fetch (i : Nat) : Load MemCell := fun vm =>
  if i < ramSize then .ok (vm.ram i) vm else .error .undefined vm

/-- The bytes are stored one after another from cell `i` on. -/
def copy (i : Nat) : List MemCell → Load Unit
  | [] => pure ()
  | b :: bytes => do
    store i b
    copy (i + 1) bytes

/-- `next_ready_pid++`. -/
def takePid : Load Nat := fun vm => .ok vm.nextReadyPid {vm with nextReadyPid := vm.nextReadyPid + 1}

/-- `Loader::load_program`, given the bytes of the file. -/
def loadProgram (bytecode : List MemCell) : Load Process := do
  let totalProgramSize :=
    bytecode.length + VMconf.programHeapStartingSizeBytes + VMconf.programStackSizeBytes
  let firstSector ← allocate totalProgramSize
  copy firstSector.toNat bytecode
  let epHigh ← fetch firstSector.toNat
  let epLow ← fetch (firstSector.toNat + 1)
  let entryPoint := word epHigh epLow
  let process := Process.create (← takePid) firstSector bytecode.length entryPoint
  copy (firstSector.toNat + bytecode.length) heapHeader
  return process

/-- A sequence of loads on `vm₀`: the VM it leaves, and the processes returned with
their images, the last one first. -/
inductive Loads (vm₀ : VM) : VM → List (Process × List MemCell) → Prop
  | none : Loads vm₀ vm₀ []
  | load {vm vm' : VM} {ps : List (Process × List MemCell)} {p : Process} (image : List MemCell)
      (h : Loads vm₀ vm ps) (hload : loadProgram image vm = .ok p vm') : Loads vm₀ vm' ((p, image) :: ps)
  | fails {vm vm' : VM} {ps : List (Process × List MemCell)} {e : LoadError} (image : List MemCell)
      (h : Loads vm₀ vm ps) (hload : loadProgram image vm = .error e vm') : Loads vm₀ vm' ps

/-! ### What it comes to -/

theorem copy_run {vm : VM} {i : Nat} {bytes : List MemCell} (h : i + bytes.length ≤ ramSize) :
    copy i bytes vm = .ok () {vm with ram := writeBytes vm.ram i bytes} := by
  induction bytes generalizing vm i with
  | nil => rfl
  | cons b bytes ih =>
    rw [List.length_cons] at h
    have hstore : store i b vm = .ok () {vm with ram := Function.update vm.ram i b} := if_pos (by omega)
    rw [copy, bind_ok hstore, ih (by omega)]
    rfl

/-- A load for which there is a segment. -/
theorem loadProgram_run {vm : VM} {bytecode : List MemCell} {firstSector : MemAddr}
    {freeList : List MemoryBlock}
    (h : MemoryManager.allocate (bytecode.length + 2000) vm.freeList = some (firstSector, freeList))
    (hfit : firstSector.toNat + bytecode.length + heapHeaderBlockSize ≤ ramSize) :
    loadProgram bytecode vm =
      .ok (vm.placedProcess firstSector bytecode) (vm.placed firstSector freeList bytecode) := by
  have hblock : heapHeaderBlockSize = 3 := rfl
  have hheader : heapHeader.length = 3 := rfl
  have htotal : bytecode.length + VMconf.programHeapStartingSizeBytes + VMconf.programStackSizeBytes =
      bytecode.length + 2000 := by
    rw [Nat.add_assoc]
    rfl
  have hallocate : allocate (bytecode.length + 2000) vm = .ok firstSector {vm with freeList := freeList} := by
    simp only [allocate, h]
  have hfetch : ∀ (vm : VM) i, i < firstSector.toNat + 3 → fetch i vm = .ok (vm.ram i) vm :=
    fun vm i hi => if_pos (by omega)
  unfold loadProgram
  rw [htotal, bind_ok hallocate, bind_ok (copy_run (by omega)), bind_ok (hfetch _ _ (by omega)),
    bind_ok (hfetch _ _ (by omega))]
  simp only [takePid, bind_run]
  rw [copy_run (by rw [hheader]; omega)]
  simp only [pure_run, VM.placedProcess, VM.placed]

theorem loadProgram_full {vm : VM} {bytecode : List MemCell}
    (h : MemoryManager.allocate (bytecode.length + 2000) vm.freeList = none) :
    loadProgram bytecode vm = .error (.allocation (bytecode.length + 2000)) vm := by
  have htotal : bytecode.length + VMconf.programHeapStartingSizeBytes + VMconf.programStackSizeBytes =
      bytecode.length + 2000 := by
    rw [Nat.add_assoc]
    rfl
  have hallocate : allocate (bytecode.length + 2000) vm = .error (.allocation (bytecode.length + 2000)) vm := by
    simp only [allocate, h]
  unfold loadProgram
  rw [htotal, bind_error hallocate]

section Sound
variable {vm vm' : VM} {procs : List Process} {bytecode : List MemCell} {p : Process}

/-- In a session a segment, once found, is large enough for all stores. -/
theorem segment_fits (h : Sound vm.freeList procs) {firstSector : MemAddr} {freeList : List MemoryBlock}
    (ha : MemoryManager.allocate (bytecode.length + 2000) vm.freeList = some (firstSector, freeList)) :
    firstSector.toNat + (bytecode.length + 2000) ≤ guiFlag := by
  obtain ⟨before, b, after, hfree, hle, rfl, -⟩ := MemoryManager.allocate_some ha
  have hbound : b.range.2 ≤ guiFlag := h.bounded _ (by simp [ranges, hfree])
  exact (Nat.add_le_add_left hle _).trans hbound

theorem loadProgram_ok_iff (h : Sound vm.freeList procs) :
    loadProgram bytecode vm = .ok p vm' ↔ vm.load bytecode = .ok (p, vm') := by
  have hflag : guiFlag = 59903 := rfl
  have hram : ramSize = 64000 := rfl
  have hblock : heapHeaderBlockSize = 3 := rfl
  cases ha : MemoryManager.allocate (bytecode.length + 2000) vm.freeList with
  | none =>
    rw [loadProgram_full ha]
    constructor
    · intro heq
      cases heq
    · intro hload
      obtain ⟨firstSector, ha', -⟩ := load_ok hload
      rw [ha] at ha'
      cases ha'
  | some found =>
    obtain ⟨firstSector, freeList⟩ := found
    have hfits := segment_fits h ha
    rw [loadProgram_run ha (by omega), load_placed ha (by omega)]
    constructor
    · intro heq
      cases heq
      rfl
    · intro heq
      cases heq
      rfl

/-- A load that throws has found no segment, and has changed nothing. -/
theorem loadProgram_error (h : Sound vm.freeList procs) {e : LoadError}
    (hload : loadProgram bytecode vm = .error e vm') :
    e = .allocation (bytecode.length + 2000) ∧ vm' = vm := by
  have hflag : guiFlag = 59903 := rfl
  have hram : ramSize = 64000 := rfl
  have hblock : heapHeaderBlockSize = 3 := rfl
  cases ha : MemoryManager.allocate (bytecode.length + 2000) vm.freeList with
  | none =>
    rw [loadProgram_full ha] at hload
    cases hload
    exact ⟨rfl, rfl⟩
  | some found =>
    obtain ⟨firstSector, freeList⟩ := found
    have hfits := segment_fits h ha
    rw [loadProgram_run ha (by omega)] at hload
    cases hload

end Sound

/-! ### Sequences of loads -/

/-- A sequence of loads is part of a session. -/
theorem Loads.session {vm₀ vm : VM} {procs : List Process} {ps : List (Process × List MemCell)}
    (h : Loads vm₀ vm ps) (h₀ : Session vm₀ procs) : Session vm (ps.map Prod.fst ++ procs) := by
  induction h with
  | none => exact h₀
  | load image _ hload ih => exact .load image ih ((loadProgram_ok_iff ih.sound).mp hload)
  | fails image _ hload ih =>
    obtain ⟨-, rfl⟩ := loadProgram_error ih.sound hload
    exact ih

/-- A process as the loader returns it: code, heap and stack follow each other, and no
field is truncated. -/
structure LaidOut (size : Nat) (p : Process) : Prop where
  loaded : Loaded size p
  code : p.firstSector ≤ p.lastCodeSector
  heapStart : p.lastCodeSector = p.heapStart
  heap : p.heapStart ≤ p.heapLimit
  heapLimit : p.heapLimit = p.stackLimit
  stack : p.stackLimit ≤ p.sp
  sp : p.sp.toNat = p.firstSector.toNat + p.allocatedMemory

theorem laidOut {size : Nat} {p : Process} (h : Loaded size p) (hsp : p.sp.toNat = p.top) : LaidOut size p := by
  have htop := h.top
  obtain ⟨hfits, hallocated, hcode, hheap, hlimit, hstack⟩ := h
  refine ⟨⟨hfits, hallocated, hcode, hheap, hlimit, hstack⟩, ?_, ?_, ?_, ?_, ?_, hsp⟩
  · rw [UInt16.le_iff_toNat_le]
    omega
  · exact UInt16.toNat_inj.mp (hcode.trans hheap.symm)
  · rw [UInt16.le_iff_toNat_le]
    omega
  · exact UInt16.toNat_inj.mp (hlimit.trans hstack.symm)
  · rw [UInt16.le_iff_toNat_le]
    omega

/-- A load stores into its own segment only. -/
theorem load_own {vm vm' : VM} {procs : List Process} {bytecode : List MemCell} {p : Process}
    (h : Session vm procs) (hload : vm.load bytecode = .ok (p, vm')) {i : Nat} (hi : ¬ p.Segment i) :
    vm'.ram i = vm.ram i := by
  have htop := (h.load_loaded hload).1.top
  have hblock : heapHeaderBlockSize = 3 := rfl
  refine (load_ram hload).kept i ?_
  rw [Process.Segment] at hi
  omega

/-- Every image is where the loader put it. -/
theorem Loads.images {vm₀ vm : VM} {procs : List Process} {ps : List (Process × List MemCell)}
    (h : Loads vm₀ vm ps) (h₀ : Session vm₀ procs) :
    ∀ e ∈ ps, LaidOut e.2.length e.1 ∧ Holds vm.ram e.1.firstSector.toNat e.2 := by
  induction h with
  | none => simp
  | @load vm vm' ps p image h hload ih =>
    have hsession := h.session h₀
    have hsum := (loadProgram_ok_iff hsession.sound).mp hload
    obtain ⟨hloaded, hsp⟩ := hsession.load_loaded hsum
    -- the new segment is apart from those of the processes before
    have hapart := (List.pairwise_append.mp (hsession.load image hsum).sound.apart).1
    rw [List.map_cons, List.pairwise_cons] at hapart
    intro e he
    rcases List.mem_cons.mp he with rfl | he
    · exact ⟨laidOut hloaded hsp, (load_ram hsum).image⟩
    · obtain ⟨hout, hholds⟩ := ih e he
      refine ⟨hout, hholds.congr fun i hi hlt => load_own hsession hsum ?_⟩
      have haway := hapart.1 e.1.range (by simp only [List.mem_map, List.mem_append]; exact
        ⟨e.1, .inl ⟨e, he, rfl⟩, rfl⟩)
      have htop := hout.loaded.top
      simp only [Process.Segment, Apart, Process.range] at haway ⊢
      omega
  | @fails vm vm' ps e image h hload ih =>
    obtain ⟨-, rfl⟩ := loadProgram_error (h.session h₀).sound hload
    exact ih

/-- **Loading is safe for any number of programs.** -/
theorem loading_safe (vm₀ vm : VM) (procs : List Process) (ps : List (Process × List MemCell))
    (h₀ : Session vm₀ procs) (h : Loads vm₀ vm ps) :
    ((ps.map fun e => e.1.range).Pairwise Apart ∧
      ∀ e ∈ ps, e.1.top ≤ ramSize - VMconf.framebufferTotSize - 1 ∧ LaidOut e.2.length e.1 ∧
        Holds vm.ram e.1.firstSector.toNat e.2) ∧
    (∀ image p vm', loadProgram image vm = .ok p vm' → ∀ i, ¬ p.Segment i → vm'.ram i = vm.ram i) ∧
    ∀ image e vm', loadProgram image vm = .error e vm' → e = .allocation (image.length + 2000) ∧
      vm'.ram = vm.ram ∧ vm'.freeList = vm.freeList ∧ vm'.nextReadyPid = vm.nextReadyPid := by
  have hsession := h.session h₀
  refine ⟨⟨?_, fun e he => ?_⟩, fun image p vm' hload i hi => ?_, fun image e vm' hload => ?_⟩
  · have hapart := (List.pairwise_append.mp hsession.sound.apart).1
    rw [List.map_append, List.map_map] at hapart
    exact (List.pairwise_append.mp hapart).1
  · obtain ⟨hout, hholds⟩ := h.images h₀ e he
    refine ⟨?_, hout, hholds⟩
    rw [hout.loaded.top]
    exact (Nat.add_assoc ..).trans_le hout.loaded.fits
  · exact load_own hsession ((loadProgram_ok_iff hsession.sound).mp hload) hi
  · obtain ⟨he, rfl⟩ := loadProgram_error hsession.sound hload
    exact ⟨he, rfl, rfl, rfl⟩

theorem twoLoads : Loads VM.fresh (freshVM [0, 2, 0xFF]) [(freshProcess [0, 2, 0xFF], [0, 2, 0xFF])] := by
  refine .fails (List.replicate 60000 0)
    (.load _ .none ((loadProgram_ok_iff sound_fresh).mpr (load_fresh (by decide)))) (loadProgram_full ?_)
  rw [List.length_replicate]
  decide

/-- An image on a fresh VM, and then one that does not fit any more. -/
theorem loading_safe_two :
    LaidOut 3 (freshProcess [0, 2, 0xFF]) ∧
      Holds (freshVM [0, 2, 0xFF]).ram (freshProcess [0, 2, 0xFF]).firstSector.toNat [0, 2, 0xFF] :=
  ((loading_safe VM.fresh (freshVM [0, 2, 0xFF]) [] _ .fresh twoLoads).1.2 _ (List.mem_singleton_self _)).2

end Loader
end CustomIsaVm
