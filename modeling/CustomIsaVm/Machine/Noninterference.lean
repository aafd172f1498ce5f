import CustomIsaVm.Machine.Dependence
import CustomIsaVm.Machine.Relocation

/-! What one run passes on to the next.

A VM keeps its registers and flags between runs, and `reset` keeps its RAM. So a
process finds what another one left in the CPU (`leak_register`), and a program
loaded after a reset finds what programs before it left in RAM (`reset_leaves_ram`).
Nothing else is passed on: a run that does not read it is not influenced
(`processes_apart`, `reset_like_new`). -/
namespace CustomIsaVm

open Effect Exec

/-! ### Differences between VMs -/

/-- The RAM cells that changed. -/
def changedCells (vm vm' : VM) : Set Nat := {i | vm'.ram i ≠ vm.ram i}

/-- The registers and flags that did not. -/
def keptParts (vm vm' : VM) : Set Part
  | .register r => vm'.registers r = vm.registers r
  | .zero => vm'.zero = vm.zero
  | .sign => vm'.sign = vm.sign

/-! ### Processes on one VM -/

/-- The segments of two processes of a session are apart. -/
theorem Session.apart {vm : VM} {procs : List Process} (hs : Session vm procs) {p q : Process}
    (hp : p ∈ procs) (hq : q ∈ procs) (hne : p ≠ q) : Apart p.range q.range := by
  have hsymm : Std.Symm fun p q : Process => Apart p.range q.range := ⟨fun _ _ h => h.symm⟩
  have hprocs := (List.pairwise_append.mp hs.sound.apart).1
  exact (List.pairwise_map.mp hprocs).forall hp hq hne

/-- What a headless run that stays with its own has changed is its own, or a pixel. -/
theorem Clean.changed {vm : VM} {p : Process} {cin : Stdin} {m : Machine}
    (hrun : Machine.system.Reaches (.headless vm p cin) m) (hclean : Clean m) :
    ∀ i ∈ changedCells vm m.toVM, p.Segment i ∨ framebufferStart ≤ i := by
  intro i hi
  have hkeeps := Machine.keeps_reaches hrun
  have hwrote : m.Wrote i := by
    by_contra hnot
    exact hi (hkeeps.ram i hnot)
  rcases hwrote with hstore | hpixel
  · exact .inl ((hkeeps.layout.segment i).mp (hclean _ hstore))
  · exact .inr (hclean _ hpixel).1

/-- Where a run ends without having been stopped, its last machine tells of every turn. -/
theorem turns_of_end {P : Machine → Prop} (hback : ∀ m n : Machine, m.Keeps n → P n → P m) {m n : Machine}
    {e : Ending} (hend : Machine.system.Ends m e n) (he : ∀ s, e ≠ .stopped s) (hn : P n) {m₁ : Machine}
    (hm₁ : Machine.system.Reaches m m₁) (hgo : m₁.goesOn = true) :
    Ensures step (fun _ => P) (fun _ => P) m₁ := by
  cases hstep : step m₁ with
  | error s m₂ =>
    have hnext : m₁.next = .error (.stopped s) := by rw [Machine.next, if_pos hgo, hstep]
    exact absurd (System.Ends.unique hend ⟨hm₁, hnext⟩).1 (he s)
  | ok u m₂ =>
    have hnext : m₁.next = .ok m₂ := by rw [Machine.next, if_pos hgo, hstep]
    rw [ensures_of_ok hstep]
    exact hback m₂ n (Machine.keeps_reaches (System.Ends.after hm₁ hnext hend).1) hn

theorem Clean.back {m n : Machine} (hkeeps : m.Keeps n) (h : Clean n) : Clean m := fun a ha =>
  (hkeeps.layout.allows a).mp (h a (hkeeps.touched.subset ha))

/-- A turn that stays with its own reads nothing of another segment, and no pixel. -/
theorem covered_of_clean {D : Set Nat} {m : Machine} {p : Process} {size : Nat} (hl : Loaded size m.proc)
    (hp : ∃ size, Loaded size p) (hapart : Apart p.range m.proc.range)
    (hD : ∀ i ∈ D, p.Segment i ∨ framebufferStart ≤ i)
    (hclean : Ensures step (fun _ => Clean) (fun _ => Clean) m) : CoveredRun D step m := by
  have hflag : guiFlag = 59903 := rfl
  have hstart : framebufferStart = 59904 := rfl
  obtain ⟨size', hlp⟩ := hp
  have hfits := hl.fits
  have hfits' := hlp.fits
  have htop := hl.top
  have htop' := hlp.top
  have hcovered : ∀ n, Clean n ∧ m.Keeps n → Covered D n.touched := by
    rintro n ⟨hn, hkeeps⟩
    refine covered_of_not_reads fun a ha i hi hread => ?_
    have hallowed : m.proc.Allows a := (hkeeps.layout.allows a).mp (hn a ha)
    have hwhere := hD i hi
    unfold Apart Process.range at hapart
    unfold Process.Segment at hwhere
    dsimp only at hapart
    have hown : ∀ j, j = i → m.proc.Segment j → False := by
      rintro j rfl hj
      have h₁ := hj.1
      have h₂ := hj.2
      omega
    cases a with
    | fetch j => exact hown j hread hallowed
    | load j => exact hown j hread hallowed
    | flag j =>
      have hj : j = i := hread
      have hj' : j = guiFlag := hallowed
      omega
    | store j => exact hread
    | pixel j => exact hread
  exact (hclean.and (framed_step m)).mono (fun _ n h => hcovered n h) fun _ n h => hcovered n h

/-- **A process does not depend on another one that ran before it, as long as it reads no
register and no flag that the other left changed.** Both touch their own segment only. -/
theorem processes_apart {vm : VM} {procs : List Process} (hs : Session vm procs) {p q : Process}
    (hp : p ∈ procs) (hq : q ∈ procs) (hne : p ≠ q) (hgui : vm.getGui = false) (cinP cinQ : Stdin)
    {m : Machine} (hrun : Machine.system.Reaches (.headless vm p cinP) m) (hclean : Clean m)
    (hown : ∀ m₁, Machine.system.Reaches (.headless vm q cinQ) m₁ → m₁.goesOn = true →
      Ensures step (fun _ => Clean) (fun _ => Clean) m₁)
    (hreads : ∀ n, ReadsOnly n (keptParts vm m.toVM) (.headless vm q cinQ)) :
    System.SameBehaviour Machine.system (.headless vm q cinQ) Machine.system (.headless m.toVM q cinQ) := by
  have hsound := hs.sound
  have hchanged := hclean.changed hrun
  obtain ⟨size, hl⟩ := hsound.loaded q hq
  have hgui' : m.toVM.getGui = false := by
    have hflag : guiFlag = 59903 := rfl
    have hstart : framebufferStart = 59904 := rfl
    obtain ⟨size', hlp⟩ := hsound.loaded p hp
    have hkept : m.ram guiFlag = vm.ram guiFlag := by
      by_contra hne
      have hfits := hlp.fits
      have htop := hlp.top
      rcases hchanged guiFlag hne with hin | hin
      · have := hin.2
        omega
      · omega
    rw [VM.getGui, hkept]
    exact hgui
  have htwin : Twin (changedCells vm m.toVM) (keptParts vm m.toVM) (.headless vm q cinQ)
      (.headless m.toVM q cinQ) :=
    headless_twin q cinQ hgui hgui' (fun _ h => h) (fun h => h) (fun h => h) fun _ h => h
  have hcovered : ∀ m₁, Machine.system.Reaches (.headless vm q cinQ) m₁ → m₁.goesOn = true →
      CoveredRun (changedCells vm m.toVM) step m₁ := by
    intro m₁ hm₁ hgo
    have hlayout := (Machine.keeps_reaches hm₁).layout
    refine covered_of_clean (hlayout.loaded hl) (hsound.loaded p hp) ?_ hchanged (hown m₁ hm₁ hgo)
    rw [show m₁.proc.range = q.range by rw [Process.range, hlayout.top, hlayout.firstSector]; rfl]
    exact hs.apart hp hq hne
  have htracked : Tracked (changedCells vm m.toVM) ∅ (.headless vm q cinQ) (.headless m.toVM q cinQ) :=
    ⟨⟨size, hl⟩, ⟨_, Set.empty_subset _, htwin, hreads⟩, hcovered⟩
  exact htracked.same

/-- The machine after `n` turns. -/
def Machine.ranFor (n : Nat) (m : Machine) : Machine := (Machine.system.after n m).getD m

theorem ends_ranFor {n : Nat} {m : Machine} {o : List MemCell} {e : Ending}
    (h : endingAfter n m = some (o, e)) :
    Machine.system.Ends m e (m.ranFor n) ∧ (m.ranFor n).cout = o := by
  obtain ⟨t, ht, hend⟩ := Option.bind_eq_some_iff.mp h
  have hran : m.ranFor n = t := by rw [Machine.ranFor, ht, Option.getD_some]
  rw [hran]
  cases hnext : t.next with
  | ok u => rw [hnext] at hend; cases hend
  | error f =>
    rw [hnext] at hend
    cases hend
    exact ⟨⟨⟨n, ht⟩, hnext⟩, rfl⟩

/-- One turn of a run that ends. -/
theorem endingAfter_succ {n : Nat} {m : Machine} {r : List MemCell × Ending}
    (h : endingAfter (n + 1) m = some r) :
    m.next = .ok (m.ranFor 1) ∧ endingAfter n (m.ranFor 1) = some r := by
  cases hnext : m.next with
  | error e =>
    rw [endingAfter, System.after_succ_error Machine.system hnext] at h
    cases h
  | ok m' =>
    have hran : m.ranFor 1 = m' := by
      rw [Machine.ranFor, System.after_succ_ok Machine.system hnext]
      rfl
    rw [endingAfter, System.after_succ_ok Machine.system hnext] at h
    rw [hran]
    exact ⟨rfl, h⟩

/-- `MOV A, 7` and `HALT`. -/
def setsA : List MemCell := [0, 2, 0x12, 1, 1, 0, 7, 0xFF]

/-- A fresh VM that has loaded it, and an image behind it. -/
def behindSetsA (image : List MemCell) : VM :=
  (freshVM setsA).placed 2008 [⟨UInt16.ofNat (4008 + image.length), 55895 - image.length⟩] image

def secondProcess (image : List MemCell) : Process := (freshVM setsA).placedProcess 2008 image

/-- The run of the first program, and of the second one on some VM. -/
def firstRun (image : List MemCell) : Machine := .headless (behindSetsA image) (freshProcess setsA) ⟨[], false⟩

def secondRun (image : List MemCell) (vm : VM) : Machine := .headless vm (secondProcess image) ⟨[], false⟩

/-- `PRINT A` and `HALT`. -/
def printsA : List MemCell := [0, 2, 0x01, 1, 1, 0xFF]

/-- The second program finds in the register what the first one left there. -/
theorem leak_register :
    Session (behindSetsA printsA) [secondProcess printsA, freshProcess setsA] ∧
    ∃ m n n', Machine.system.Ends (firstRun printsA) .halted m ∧
      Machine.system.Ends (secondRun printsA (behindSetsA printsA)) .halted n ∧
      Machine.system.Ends (secondRun printsA m.toVM) .halted n' ∧
      (∀ a ∈ m.touched, m.proc.Segment a.address) ∧ (∀ a ∈ n.touched, n.proc.Segment a.address) ∧
      (∀ a ∈ n'.touched, n'.proc.Segment a.address) ∧ n.cout = [0] ∧ n'.cout = [7] := by
  have hfirst : endingAfter 2 (firstRun printsA) = some ([], .halted) := by decide +kernel
  have halone : endingAfter 2 (secondRun printsA (behindSetsA printsA)) = some ([0], .halted) := by
    decide +kernel
  have hafter : endingAfter 2 (secondRun printsA ((firstRun printsA).ranFor 2).toVM) = some ([7], .halted) := by
    decide +kernel
  refine ⟨.load printsA (.load setsA .fresh (load_fresh (by decide))) (load_placed (by decide) (by decide)),
    _, _, _, (ends_ranFor hfirst).1, (ends_ranFor halone).1, (ends_ranFor hafter).1, ?_, ?_, ?_,
    (ends_ranFor halone).2, (ends_ranFor hafter).2⟩
  · decide +kernel
  · decide +kernel
  · decide +kernel

/-- `MOV A, 5`, `PRINT A` and `HALT`. -/
def setsAndPrintsA : List MemCell := [0, 2, 0x12, 1, 1, 0, 5, 0x01, 1, 1, 0xFF]

/-- It reads nothing that it has not set. -/
theorem setsAndPrintsA_reads (K : Set Part) (n : Nat) :
    ReadsOnly n K (secondRun setsAndPrintsA (behindSetsA setsAndPrintsA)) := by
  have hend : endingAfter 3 (secondRun setsAndPrintsA (behindSetsA setsAndPrintsA)) = some ([5], .halted) := by
    decide +kernel
  have hmov : current (secondRun setsAndPrintsA (behindSetsA setsAndPrintsA)) =
    .mov ⟨.register, 1⟩ ⟨.number, 5⟩ := by decide +kernel
  have hprint : current ((secondRun setsAndPrintsA (behindSetsA setsAndPrintsA)).ranFor 1) =
    .print ⟨.register, 1⟩ := by decide +kernel
  have hhalt : current (((secondRun setsAndPrintsA (behindSetsA setsAndPrintsA)).ranFor 1).ranFor 1) =
    .halt := by decide +kernel
  obtain ⟨h₀, hend⟩ := endingAfter_succ hend
  obtain ⟨h₁, hend⟩ := endingAfter_succ hend
  obtain ⟨h₂, -⟩ := endingAfter_succ hend
  refine ReadsOnly.turn ?_ h₀ (ReadsOnly.turn ?_ h₁ (ReadsOnly.turn ?_ h₂ fun n => .halted ?_ n _)) n
  · rw [hmov]
    rintro x (⟨hx | hx, -⟩ | ⟨-, hx, -⟩) <;> cases hx
  · rw [hprint, hmov]
    exact fun x hx => .inr ⟨rfl, hx.2⟩
  · rw [hhalt]
    exact Set.empty_subset _
  · decide +kernel

/-- A program that sets the register itself does not find what was in it. -/
theorem processes_apart_set : ∃ m, Machine.system.Ends (firstRun setsAndPrintsA) .halted m ∧
    m.registers 0 = 7 ∧ (behindSetsA setsAndPrintsA).registers 0 = 0 ∧
    System.SameBehaviour Machine.system (secondRun setsAndPrintsA (behindSetsA setsAndPrintsA))
      Machine.system (secondRun setsAndPrintsA m.toVM) := by
  have hs : Session (behindSetsA setsAndPrintsA) [secondProcess setsAndPrintsA, freshProcess setsA] :=
    .load _ (.load setsA .fresh (load_fresh (by decide))) (load_placed (by decide) (by decide))
  have hfirst : endingAfter 2 (firstRun setsAndPrintsA) = some ([], .halted) := by decide +kernel
  have hsecond : endingAfter 3 (secondRun setsAndPrintsA (behindSetsA setsAndPrintsA)) = some ([5], .halted) := by
    decide +kernel
  have hclean : Clean ((firstRun setsAndPrintsA).ranFor 2) := by decide +kernel
  have hclean' : Clean ((secondRun setsAndPrintsA (behindSetsA setsAndPrintsA)).ranFor 3) := by
    decide +kernel
  exact ⟨_, (ends_ranFor hfirst).1, by decide +kernel, rfl, processes_apart hs (by simp) (by simp)
    (by decide) (by decide) _ _ (ends_ranFor hfirst).1.1 hclean
    (fun m₁ hm₁ => turns_of_end (fun _ _ => Clean.back) (ends_ranFor hsecond).1 (fun s hs => by cases hs)
      hclean' hm₁)
    (setsAndPrintsA_reads _)⟩

/-! ### After a reset -/

/-- What is free after the first load. -/
def freeBehind (size : Nat) : List MemoryBlock :=
  if guiFlag - (size + 2000) = 0 then [] else [⟨UInt16.ofNat (size + 2000), guiFlag - (size + 2000)⟩]

/-- What a load after a reset comes to, if the image fits. -/
theorem load_reset (vm : VM) {image : List MemCell} (h : image.length + 2000 ≤ guiFlag) :
    vm.reset.load image =
      .ok (vm.reset.placedProcess 0 image, vm.reset.placed 0 (freeBehind image.length) image) := by
  have hflag : guiFlag = 59903 := rfl
  have hram : ramSize = 64000 := rfl
  have hblock : heapHeaderBlockSize = 3 := rfl
  have hsize : ramSize - VMconf.framebufferTotSize - 1 = guiFlag := rfl
  refine load_placed ?_ (by rw [UInt16.toNat_zero]; omega)
  simp only [VM.reset, MemoryManager.allocate, hsize, if_pos h, UInt16.zero_add, freeBehind]

theorem load_reset_full (vm : VM) {image : List MemCell} (h : ¬ image.length + 2000 ≤ guiFlag) :
    vm.reset.load image = .error (.allocation (image.length + 2000)) := by
  have htotal : image.length + VMconf.programHeapStartingSizeBytes + VMconf.programStackSizeBytes =
      image.length + 2000 := by
    rw [Nat.add_assoc]
    rfl
  have hsize : ramSize - VMconf.framebufferTotSize - 1 = guiFlag := rfl
  simp only [VM.load, htotal, VM.reset, MemoryManager.allocate, hsize, if_neg h, Option.map_none]

/-- A new VM is one that was reset. -/
theorem fresh_reset : VM.fresh.reset = VM.fresh := rfl

/-- The entry point is read from the image, if the image has one. -/
theorem placedProcess_reset (vm : VM) {image : List MemCell} (h : 2 ≤ image.length) :
    vm.reset.placedProcess 0 image = VM.fresh.placedProcess 0 image := by
  match image, h with
  | high :: low :: rest, _ =>
    obtain ⟨hhigh, hlow, -⟩ := holds_writeBytes vm.ram (0 : MemAddr).toNat (high :: low :: rest)
    obtain ⟨hhigh', hlow', -⟩ := holds_writeBytes VM.fresh.ram (0 : MemAddr).toNat (high :: low :: rest)
    simp only [VM.placedProcess, VM.reset]
    rw [hhigh, hlow, hhigh', hlow']
    rfl

theorem placed_reset (vm : VM) (freeList : List MemoryBlock) (image : List MemCell) :
    vm.reset.placed 0 freeList image = {VM.fresh.placed 0 freeList image with
      ram := (vm.reset.placed 0 freeList image).ram, lastKey := vm.lastKey} := rfl

/-- Two loads of an image at address 0 agree on the image and the header behind it. -/
theorem loaded_agree {ram ram' before before' : Nat → MemCell} {image : List MemCell}
    (h : LoadedRam image 0 before ram) (h' : LoadedRam image 0 before' ram') {i : Nat}
    (hi : i < image.length + heapHeaderBlockSize) : ram' i = ram i := by
  have hblock : heapHeaderBlockSize = 3 := rfl
  by_cases hlt : i < image.length
  · have himage := holds_iff.mp h.image i hlt
    have himage' := holds_iff.mp h'.image i hlt
    rw [Nat.zero_add] at himage himage'
    rw [himage, himage']
  · have hlen : i - image.length < heapHeader.length := by
      show i - image.length < 3
      omega
    have hheap := holds_iff.mp h.heap _ hlen
    have hheap' := holds_iff.mp h'.heap _ hlen
    rw [show 0 + image.length + (i - image.length) = i by omega] at hheap hheap'
    rw [hheap, hheap']

/-- What a load after a reset returns is what it returns on a new VM, up to RAM behind the
image and the header. -/
theorem load_like_new {vm vm₁ : VM} {image : List MemCell} {p : Process} (himage : 2 ≤ image.length)
    (hload : vm.reset.load image = .ok (p, vm₁)) : ∃ vm₀, VM.fresh.load image = .ok (p, vm₀) ∧
      vm₁ = {vm₀ with ram := vm₁.ram, lastKey := vm.lastKey} ∧
      (∀ i ∈ changedCells vm₀ vm₁, image.length + heapHeaderBlockSize ≤ i ∧ vm.ram i ≠ 0) ∧
      ∀ i, image.length + heapHeaderBlockSize ≤ i → vm₁.ram i = vm.ram i ∧ vm₀.ram i = 0 := by
  by_cases hfits : image.length + 2000 ≤ guiFlag
  · have hload₁ := load_reset vm hfits
    have hload₀ := load_reset VM.fresh hfits
    rw [fresh_reset, ← placedProcess_reset vm himage] at hload₀
    cases hload.symm.trans hload₁
    have hram : LoadedRam image 0 vm.ram _ := load_ram hload₁
    have hram₀ : LoadedRam image 0 VM.fresh.ram _ := load_ram hload₀
    refine ⟨_, hload₀, placed_reset vm _ image, fun i hi => ?_, fun i hi => ?_⟩
    · have hbehind : image.length + heapHeaderBlockSize ≤ i :=
        Nat.not_lt.mp fun hlt => hi (loaded_agree hram₀ hram hlt)
      refine ⟨hbehind, fun hzero => hi ?_⟩
      rw [hram.kept i (.inr (by omega)), hram₀.kept i (.inr (by omega)), hzero]
      rfl
    · exact ⟨hram.kept i (.inr (by omega)), hram₀.kept i (.inr (by omega))⟩
  · rw [load_reset_full vm hfits] at hload
    cases hload

/-- **A VM that was reset is a new one but for RAM and the last key.** An image loads as on a
new VM, and the loaded VMs differ in the last key and in cells that were not zero before,
behind the image and the first heap header. A headless run that reads none of them before it
has written it behaves as on a new VM, and ends with the same registers. -/
theorem reset_like_new (vm : VM) {image : List MemCell} (himage : 2 ≤ image.length) :
    vm.reset = {VM.fresh with ram := vm.ram, lastKey := vm.lastKey} ∧
    (∀ e, vm.reset.load image = .error e ↔ VM.fresh.load image = .error e) ∧
    ∀ p vm₁, vm.reset.load image = .ok (p, vm₁) → ∃ vm₀, VM.fresh.load image = .ok (p, vm₀) ∧
      vm₁ = {vm₀ with ram := vm₁.ram, lastKey := vm.lastKey} ∧
      (∀ i ∈ changedCells vm₀ vm₁, image.length + heapHeaderBlockSize ≤ i ∧ vm.ram i ≠ 0) ∧
      ∀ cin, vm.getGui = false →
        (∀ m, Machine.system.Reaches (.headless vm₀ p cin) m → m.goesOn = true →
          CoveredRun (changedCells vm₀ vm₁) step m) →
        System.SameBehaviour Machine.system (.headless vm₀ p cin) Machine.system (.headless vm₁ p cin) ∧
        ∀ e m₀ m₁, Machine.system.Ends (.headless vm₀ p cin) e m₀ →
          Machine.system.Ends (.headless vm₁ p cin) e m₁ → m₁.registers = m₀.registers := by
  refine ⟨rfl, fun e => ?_, fun p vm₁ hload => ?_⟩
  · by_cases hfits : image.length + 2000 ≤ guiFlag
    · rw [load_reset vm hfits, ← fresh_reset, load_reset VM.fresh hfits]
      exact ⟨fun h => (by cases h), fun h => (by cases h)⟩
    · rw [load_reset_full vm hfits, ← fresh_reset, load_reset_full VM.fresh hfits]
  · obtain ⟨vm₀, hload₀, hsame, hchanged, hbehind⟩ := load_like_new himage hload
    refine ⟨vm₀, hload₀, hsame, hchanged, fun cin hgui hcovered => ?_⟩
    have hl := (Session.fresh.load_loaded hload₀).1
    have hflag : image.length + heapHeaderBlockSize ≤ guiFlag := by
      have hblock : heapHeaderBlockSize = 3 := rfl
      have hfits := hl.fits
      omega
    have htwin : Twin (changedCells vm₀ vm₁) Set.univ (.headless vm₀ p cin) (.headless vm₁ p cin) := by
      refine headless_twin p cin ?_ ?_ (fun r _ => ?_) (fun _ => ?_) (fun _ => ?_) fun _ h => h
      · rw [VM.getGui, (hbehind guiFlag hflag).2]
        rfl
      · rw [VM.getGui, (hbehind guiFlag hflag).1]
        exact hgui
      · rw [hsame]
      · rw [hsame]
      · rw [hsame]
    have htracked : Tracked (changedCells vm₀ vm₁) Set.univ (.headless vm₀ p cin) (.headless vm₁ p cin) :=
      ⟨⟨_, hl⟩, ⟨Set.univ, Set.Subset.rfl, htwin, fun n => readsOnly_univ n _⟩, hcovered⟩
    refine ⟨htracked.same, fun e m₀ m₁ hends hends₁ => ?_⟩
    obtain ⟨n, hends', hn⟩ := htracked.ends hends
    obtain ⟨-, rfl⟩ := System.Ends.unique hends' hends₁
    exact funext fun r => hn.registers r trivial

/-- `MOV [100], 7` and `HALT`. -/
def stores100 : List MemCell := [0, 2, 0x12, 4, 0, 100, 0, 7, 0xFF]

/-- `PRINT [100]` and `HALT`. -/
def prints100 : List MemCell := [0, 2, 0x01, 4, 0, 100, 0xFF]

/-- The headless run of an image that a VM has loaded at address 0. -/
def runAtZero (image : List MemCell) (vm : VM) : Machine := .headless vm (freshProcess image) ⟨[], false⟩

/-- The VM on which the first image ran, and was then reset. -/
def usedVM : VM := ((runAtZero stores100 (freshVM stores100)).ranFor 2).toVM

/-- What it has loaded at address 0 after the reset. -/
def reused (image : List MemCell) : VM := usedVM.reset.placed 0 (freeBehind image.length) image

theorem reused_loads {image : List MemCell} (himage : 2 ≤ image.length) (h : image.length + 2000 ≤ guiFlag) :
    usedVM.reset.load image = .ok (freshProcess image, reused image) := by
  rw [freshProcess, ← placedProcess_reset usedVM himage]
  exact load_reset usedVM h

/-- The second program finds in RAM what the first one left there before the reset. -/
theorem reset_leaves_ram :
    VM.fresh.setGui false = VM.fresh ∧ VM.fresh.load stores100 = .ok (freshProcess stores100, freshVM stores100) ∧
    VM.fresh.load prints100 = .ok (freshProcess prints100, freshVM prints100) ∧
    ∃ m vm n n', Machine.system.Ends (runAtZero stores100 (freshVM stores100)) .halted m ∧
      m.toVM.reset.load prints100 = .ok (freshProcess prints100, vm) ∧
      Machine.system.Ends (runAtZero prints100 (freshVM prints100)) .halted n ∧
      Machine.system.Ends (runAtZero prints100 vm) .halted n' ∧ n.cout = [0] ∧ n'.cout = [7] := by
  have hused : endingAfter 2 (runAtZero stores100 (freshVM stores100)) = some ([], .halted) := by
    decide +kernel
  have hnew : endingAfter 2 (runAtZero prints100 (freshVM prints100)) = some ([0], .halted) := by
    decide +kernel
  have hreused : endingAfter 2 (runAtZero prints100 (reused prints100)) = some ([7], .halted) := by
    decide +kernel
  have hram : Function.update VM.fresh.ram guiFlag 0 = VM.fresh.ram := Function.update_eq_self guiFlag VM.fresh.ram
  have hgui : VM.fresh.setGui false = VM.fresh := congrArg (fun ram => {VM.fresh with ram := ram}) hram
  exact ⟨hgui, load_fresh (by decide), load_fresh (by decide), _, _, _, _, (ends_ranFor hused).1,
    reused_loads (by decide) (by decide), (ends_ranFor hnew).1, (ends_ranFor hreused).1, (ends_ranFor hnew).2,
    (ends_ranFor hreused).2⟩

/-- `MOV [100], 9`, `PRINT [100]` and `HALT`. -/
def storesAndPrints100 : List MemCell := [0, 2, 0x12, 4, 0, 100, 0, 9, 0x01, 4, 0, 100, 0xFF]

/-- It reads no cell behind the image and the header that it has not written. -/
theorem storesAndPrints100_covered {D : Set Nat} (hD : ∀ i ∈ D, 16 ≤ i) (m : Machine)
    (hm : Machine.system.Reaches (runAtZero storesAndPrints100 (freshVM storesAndPrints100)) m)
    (hgo : m.goesOn = true) : CoveredRun D step m := by
  have hend : endingAfter 3 (runAtZero storesAndPrints100 (freshVM storesAndPrints100)) =
      some ([9], .halted) := by decide +kernel
  have htouched : ((runAtZero storesAndPrints100 (freshVM storesAndPrints100)).ranFor 3).touched =
      .fetch 12 :: .load 100 :: .fetch 11 :: .fetch 10 :: .fetch 9 :: .fetch 8 :: .store 100 :: .fetch 7 ::
        .fetch 6 :: .fetch 5 :: .fetch 4 :: .fetch 3 :: .fetch 2 :: [] := by decide +kernel
  refine turns_of_end (P := fun m => Covered D m.touched) (fun _ _ hkeeps h => h.start hkeeps.touched)
    (ends_ranFor hend).1 (fun s hs => by cases hs) ?_ hm hgo
  rw [htouched]
  have hearly : ∀ a ∈ ([.fetch 11, .fetch 10, .fetch 9, .fetch 8, .store 100, .fetch 7, .fetch 6, .fetch 5,
      .fetch 4, .fetch 3, .fetch 2] : List Access), a.address < 16 ∨ a = .store 100 := by decide
  -- up to the store nothing behind the header is read, and `PRINT` reads the cell that was stored
  refine ⟨⟨covered_of_not_reads fun a ha i hi hreads => ?_, fun i _ h => .inl (h ▸ by simp)⟩, fun i hi h => ?_⟩
  · have hbehind := hD i hi
    rcases hearly a ha with hlt | rfl
    · rw [hreads.address] at hlt
      omega
    · exact hreads
  · have hbehind := hD i hi
    rw [← show 12 = i from h] at hbehind
    omega

/-- A program that writes the cell itself does not find what was in it. -/
theorem reset_like_new_written : usedVM.ram 100 = 7 ∧
    System.SameBehaviour Machine.system (runAtZero storesAndPrints100 (freshVM storesAndPrints100))
      Machine.system (runAtZero storesAndPrints100 (reused storesAndPrints100)) := by
  refine ⟨by decide +kernel, ?_⟩
  obtain ⟨vm₀, hload₀, -, hchanged, hrun⟩ := (reset_like_new usedVM
    (by decide : 2 ≤ storesAndPrints100.length)).2.2 _ _ (reused_loads (by decide) (by decide))
  obtain rfl : vm₀ = freshVM storesAndPrints100 :=
    (Prod.mk.inj (Except.ok.inj (hload₀.symm.trans (load_fresh (by decide))))).2
  exact (hrun ⟨[], false⟩ (by decide +kernel) (storesAndPrints100_covered fun i hi => (hchanged i hi).1)).1

end CustomIsaVm
