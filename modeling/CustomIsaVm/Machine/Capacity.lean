import CustomIsaVm.Machine.Loading

/-! How many programs a VM takes.

Nothing ever gives a segment back, so between two resets the free list is one block: what
lies above the segments handed out so far. Programs are packed one after the other without
gaps, each starts where those loaded before it end, and a program is refused exactly when
its image with heap and stack is longer than what is left (`capacity_exact`). Runs, the
GUI flag and refused loads do not matter. -/
namespace CustomIsaVm
open MemoryManager

/-- The bytes that the segments of the processes take. -/
def inUse (procs : List Process) : Nat := (procs.map Process.allocatedMemory).sum

@[simp] theorem inUse_nil : inUse [] = 0 := rfl

@[simp] theorem inUse_cons (p : Process) (procs : List Process) :
    inUse (p :: procs) = p.allocatedMemory + inUse procs := by
  simp [inUse]

@[simp] theorem inUse_append (ps qs : List Process) : inUse (ps ++ qs) = inUse ps + inUse qs := by
  simp [inUse]

/-- The free list once the first `n` bytes are handed out. -/
def leftover (n : Nat) : List MemoryBlock := if n = guiFlag then [] else [⟨UInt16.ofNat n, guiFlag - n⟩]

/-- An allocation takes the bytes above those handed out, if there are enough. -/
theorem allocate_leftover {n k : Nat} (hn : n ≤ guiFlag) (hk : 1 ≤ k) : allocate k (leftover n) =
    if n + k ≤ guiFlag then some (UInt16.ofNat n, leftover (n + k)) else none := by
  unfold leftover
  by_cases hfull : n = guiFlag
  · rw [if_pos hfull, if_neg (by omega)]
    rfl
  · rw [if_neg hfull, allocate, allocate]
    by_cases hfits : n + k ≤ guiFlag
    · rw [if_pos (by simp only; omega), if_pos hfits]
      simp only [Nat.sub_sub, ← UInt16.ofNat_add]
      by_cases hlast : n + k = guiFlag
      · rw [if_pos (by omega), if_pos hlast]
      · rw [if_neg (by omega), if_neg hlast]
    · rw [if_neg (by simp only; omega), if_neg hfits]
      rfl

/-- The processes lie one on the other, and the free list is what is above them. -/
structure Packed (free : List MemoryBlock) (procs : List Process) : Prop where
  free : free = leftover (inUse procs)
  fits : inUse procs ≤ guiFlag
  placed : ∀ above p below, procs = above ++ p :: below → p.firstSector.toNat = inUse below
  sized : ∀ p ∈ procs, 2000 ≤ p.allocatedMemory

theorem packed_nil : Packed [⟨0, ramSize - VMconf.framebufferTotSize - 1⟩] [] where
  free := rfl
  fits := Nat.zero_le _
  placed above p below h := by simp at h
  sized p hp := by cases hp

/-- A load puts its process on top. -/
theorem Packed.load {free free' : List MemoryBlock} {procs : List Process} {p : Process} (h : Packed free procs)
    (hsize : 2000 ≤ p.allocatedMemory) (ha : allocate p.allocatedMemory free = some (p.firstSector, free')) :
    Packed free' (p :: procs) := by
  have hflag : guiFlag = 59903 := rfl
  have hbelow := h.fits
  rw [h.free, allocate_leftover h.fits (by omega)] at ha
  split at ha
  next hfits =>
    obtain ⟨hstart, rfl⟩ := Prod.mk.inj (Option.some.inj ha)
    refine ⟨by rw [inUse_cons, Nat.add_comm], by rw [inUse_cons]; omega, fun above q below hq => ?_, fun q hq => ?_⟩
    · cases above with
      | nil =>
        cases hq
        rw [← hstart, UInt16.toNat_ofNat']
        omega
      | cons r above =>
        cases hq
        exact h.placed above q below rfl
    · rcases List.mem_cons.mp hq with rfl | hq
      · exact hsize
      · exact h.sized q hq
  next => cases ha

/-- A process may be exchanged for one of the same layout. -/
theorem Packed.replace {free : List MemoryBlock} {before after : List Process} {p q : Process}
    (h : Packed free (before ++ p :: after)) (hpq : p.SameLayout q) : Packed free (before ++ q :: after) := by
  have huse : inUse (before ++ q :: after) = inUse (before ++ p :: after) := by
    simp only [inUse_append, inUse_cons, hpq.allocatedMemory]
  refine ⟨by rw [huse]; exact h.free, by rw [huse]; exact h.fits, fun above r below hr => ?_, fun r hr => ?_⟩
  · rcases List.append_eq_append_iff.mp hr with ⟨mid, rfl, hmid⟩ | ⟨mid, rfl, hmid⟩
    · cases mid with
      | nil =>
        cases hmid
        rw [hpq.firstSector]
        exact h.placed before p after rfl
      | cons s mid =>
        cases hmid
        exact h.placed (before ++ p :: mid) r below (by simp)
    · cases mid with
      | nil =>
        cases hmid
        rw [hpq.firstSector]
        exact h.placed above p after (by simp)
      | cons s mid =>
        cases hmid
        have := h.placed above r (mid ++ p :: after) (by simp)
        rw [this]
        show inUse (mid ++ p :: after) = inUse (mid ++ q :: after)
        simp only [inUse_append, inUse_cons, hpq.allocatedMemory]
  · rcases List.mem_append.mp hr with hr | hr
    · exact h.sized r (by simp [hr])
    · rcases List.mem_cons.mp hr with rfl | hr
      · rw [hpq.allocatedMemory]
        exact h.sized p (by simp)
      · exact h.sized r (by simp [hr])

/-- In every session the processes are packed. -/
theorem Session.packed {vm : VM} {procs : List Process} (h : Session vm procs) : Packed vm.freeList procs := by
  induction h with
  | fresh => exact packed_nil
  | setGui _ _ ih => exact ih
  | reset _ _ => exact packed_nil
  | @load vm vm' procs proc bytecode _ hload ih =>
    obtain ⟨firstSector, ha, ⟨entryPoint, rfl⟩, -⟩ := load_ok hload
    have hsize : (Process.create vm.nextReadyPid firstSector bytecode.length entryPoint).allocatedMemory =
        bytecode.length + 2000 := Nat.add_assoc _ _ _
    exact ih.load (by omega) (by rw [hsize]; exact ha)
  | @run vm before after proc m cin handle events _ hrun ih =>
    have hkeeps := Machine.keeps_reaches hrun
    rw [show m.freeList = vm.freeList from hkeeps.freeList]
    exact ih.replace hkeeps.layout
  | leave _ _ ih => exact ih.replace ⟨rfl, rfl, rfl, rfl, rfl, rfl, rfl, rfl⟩

/-- Every process takes at least its heap and its stack. -/
theorem length_le_inUse {procs : List Process} (h : ∀ p ∈ procs, 2000 ≤ p.allocatedMemory) :
    2000 * procs.length ≤ inUse procs := by
  induction procs with
  | nil => exact Nat.le_refl _
  | cons p procs ih =>
    have hp := h p (List.mem_cons_self ..)
    have hrest := ih fun q hq => h q (List.mem_cons_of_mem p hq)
    rw [List.length_cons, inUse_cons]
    omega

/-- **Programs are packed, and one is refused exactly when it does not fit.** In every
session each process starts where those loaded before it end; at most 29 programs are
loaded at a time; an image of `n` bytes loads exactly when `n + 2000` bytes are left, right
above the others, and is otherwise refused with the VM as it was. -/
theorem capacity_exact {vm : VM} {procs : List Process} (h : Session vm procs) :
    (∀ above p below, procs = above ++ p :: below → p.firstSector.toNat = inUse below) ∧
    procs.length ≤ 29 ∧ ∀ bytecode,
      (inUse procs + (bytecode.length + 2000) ≤ guiFlag →
        ∃ p vm', Loader.loadProgram bytecode vm = .ok p vm' ∧ p.firstSector.toNat = inUse procs) ∧
      (guiFlag < inUse procs + (bytecode.length + 2000) →
        Loader.loadProgram bytecode vm = .error (.allocation (bytecode.length + 2000)) vm) := by
  have hflag : guiFlag = 59903 := rfl
  have hram : ramSize = 64000 := rfl
  have hblock : heapHeaderBlockSize = 3 := rfl
  have hpacked := h.packed
  have hfits := hpacked.fits
  have hcount := length_le_inUse hpacked.sized
  refine ⟨hpacked.placed, by omega, fun bytecode => ?_⟩
  have ha := allocate_leftover (k := bytecode.length + 2000) hfits (by omega)
  rw [← hpacked.free] at ha
  constructor
  · intro hle
    rw [if_pos hle] at ha
    have hstart : (UInt16.ofNat (inUse procs)).toNat = inUse procs := by
      rw [UInt16.toNat_ofNat']
      omega
    exact ⟨_, _, Loader.loadProgram_run ha (by omega), hstart⟩
  · intro hlt
    rw [if_neg (by omega)] at ha
    exact Loader.loadProgram_full ha

/-- After a program of three bytes the next one starts at 2003. -/
theorem capacity_exact_second : ∃ p vm', Loader.loadProgram [0, 2, 0xFF] (freshVM [0, 2, 0xFF]) = .ok p vm' ∧
    p.firstSector.toNat = 2003 := by
  have hs : Session (freshVM [0, 2, 0xFF]) [freshProcess [0, 2, 0xFF]] :=
    .load _ .fresh (load_fresh (by decide))
  exact ((capacity_exact hs).2.2 [0, 2, 0xFF]).1 (by decide)

end CustomIsaVm
