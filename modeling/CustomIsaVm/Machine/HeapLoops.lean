import CustomIsaVm.Machine.Throw

/-! When one `HALLOC` or `HFREE` ends, and what `HFREE` catches.

Both loops follow sizes that a program can write over, with a 16-bit cursor. They end
exactly when they never come back to a state (`heap_loops_end`). `HFREE` accepts a
pointer when one byte holds the mark of an owned header, whatever that byte is for
(`hfree_catches`). -/
namespace CustomIsaVm

open Effect Exec Orbit Blocks

/-! ### Ends -/

namespace Exec
variable {α β : Type}

/-- A part that does not run for ever. -/
def Ends (x : Exec α) : Prop := ∀ m, Ensures x (fun _ _ => True) (fun s _ => s ≠ .endless) m

theorem Ends.bind {x : Exec α} {f : α → Exec β} (hx : Ends x) (hf : ∀ a, Ends (f a)) : Ends (x >>= f) := by
  intro m
  rw [ensures_bind]
  exact (hx m).mono (fun a t _ => hf a t) fun _ _ h => h

theorem Tidy.ends {x : Exec α} (h : Tidy x) : Ends x := fun m =>
  (h m).mono (fun _ _ _ => trivial) fun _ _ hs => hs.1

theorem ends_lowered {n : Nat} {k : Process → Exec Unit} (hk : ∀ p, Silent (k p)) : Ends (do
    lowerSP n
    let proc := (← get).proc
    raiseIf (proc.sp < proc.stackLimit) .stackOverflow
    k proc) :=
  .bind (Silent.update _).tidy.ends fun _ => .bind Silent.get.tidy.ends fun _ =>
    .bind (Reader.raiseIf _ _).tidy.ends fun _ => (hk _).tidy.ends

theorem ends_spush (arg : RawArgument) : Ends (spush arg) :=
  .bind (reader_wordValue _ arg).tidy.ends fun v => ends_lowered (k := fun proc =>
      if stackWidth arg.type = 1 then store .store proc.sp.toNat (lowByte v.toNat)
      else do
        store .store proc.sp.toNat (highByte v.toNat)
        store .store (proc.sp.toNat + 1) (lowByte v.toNat))
    fun _ => .ite (silent_store _ _ _) (.bind (silent_store _ _ _) fun _ => silent_store _ _ _)

theorem ends_call (arg : RawArgument) : Ends (call arg) := by
  refine .bind (Reader.raiseIf _ _).tidy.ends fun _ => .bind Silent.get.tidy.ends fun m => ?_
  have hpushed : ∀ proc : Process, Silent (do
      store .store proc.sp.toNat (highByte m.proc.pc.toNat)
      store .store (proc.sp.toNat + 1) (lowByte m.proc.pc.toNat)
      modify fun m => {m with proc := {m.proc with pc := arg.value}}) := fun _ =>
    .bind (silent_store _ _ _) fun _ => .bind (silent_store _ _ _) fun _ => .update _
  exact ends_lowered hpushed

/-- `x` completes or throws. -/
def Finishes (x : Exec α) (m : Machine) : Prop :=
  Ensures x (fun _ _ => True) (fun s _ => ∃ e, s = .throws e) m

end Exec

/-- What is expected of the instruction at PC: it does not run for ever, and the loop of
`HALLOC` and of `HFREE` completes or throws, so that every header it reads lies in RAM. -/
structure HeapLoopEnds (m : Machine) : Prop where
  ends : ∀ m', step m ≠ .error .endless m'
  halloc : ∀ place size v t, current m = .halloc place size →
    wordValue (size.type = .number) size (fetched m) = .ok v (recorded (fetched m) t) →
      Finishes (hallocScan v.toNat loopFuel m.proc.heapStart) (recorded (fetched m) t)
  hfree : ∀ arg v t, current m = .hfree arg →
    wordValue (arg.type = .address) arg (fetched m) = .ok v (recorded (fetched m) t) →
      Finishes (hfree arg) (fetched m)

/-- The headers lead out: the search does not come back to a cursor, and a pointer to be
freed has its status byte in RAM and, when that byte says owned, the merging loop does not
come back to a cursor with the same RAM. -/
structure LeadsOut (m : Machine) : Prop where
  halloc : ∀ place size v, current m = .halloc place size →
    wordOf (size.type = .number) m size = some v →
      ¬ Returns (scanNext m.ram m.proc.heapLimit v.toNat) m.proc.heapStart
  hfree : ∀ arg v, current m = .hfree arg → wordOf (arg.type = .address) m arg = some v →
    guardOf v < ramSize ∧ (m.ram (guardOf v) = HeapReg.owned.toByte →
      ¬ Returns (coalesceNext m.proc.heapLimit) (m.proc.heapStart, marked m.ram v))

section
variable {m : Machine}

theorem finishes_scan {n : Nat} {cursor : MemAddr} {t : List Access}
    (hlimit : m.proc.heapLimit.toNat + 2 ≤ ramSize) :
    Finishes (hallocScan n loopFuel cursor) (recorded m t) ↔
      ¬ Returns (scanNext m.ram m.proc.heapLimit n) cursor := by
  obtain ⟨u, hu⟩ := hallocScan_walk hlimit n loopFuel cursor t
  rw [← scan_endless]
  cases hstop : stop (scanNext m.ram m.proc.heapLimit n) loopFuel cursor with
  | none =>
    rw [hstop] at hu
    rw [Finishes, ensures_of_error hu]
    simp
  | some c =>
    rw [hstop] at hu
    dsimp only at hu
    split at hu
    · rw [Finishes, ensures_of_error hu]
      simp
    · rw [Finishes, ensures_of_ok hu]
      simp

theorem finishes_hfree {arg : RawArgument} {v : MemAddr} {t : List Access}
    (hlimit : m.proc.heapLimit.toNat + 2 ≤ ramSize)
    (hv : wordValue (arg.type = .address) arg m = .ok v (recorded m t)) :
    Finishes (hfree arg) m ↔ guardOf v < ramSize ∧ (m.ram (guardOf v) = HeapReg.owned.toByte →
      ¬ Returns (coalesceNext m.proc.heapLimit) (m.proc.heapStart, marked m.ram v)) := by
  obtain ⟨ram, u, hu⟩ := hfree_walk hlimit hv
  rw [← coalesce_endless hlimit]
  split at hu
  · rename_i hout
    rw [Finishes, ensures_of_error hu]
    simp [Nat.not_lt.mpr hout]
  · rename_i hin
    split at hu
    · rename_i hfree
      rw [Finishes, ensures_of_error hu]
      simp [Nat.not_le.mp hin, hfree]
    · rename_i howned
      cases hstop : stop (coalesceNext m.proc.heapLimit) loopFuel (m.proc.heapStart, marked m.ram v) with
      | none =>
        rw [hstop] at hu
        rw [Finishes, ensures_of_error hu]
        simp [not_not.mp howned]
      | some s =>
        rw [hstop] at hu
        rw [Finishes, ensures_of_ok hu]
        simp [Nat.not_le.mp hin]

theorem halloc_ends {place size : RawArgument} (hlimit : m.proc.heapLimit.toNat + 2 ≤ ramSize)
    (h : ∀ v, wordOf (size.type = .number) m size = some v →
      ¬ Returns (scanNext m.ram m.proc.heapLimit v.toNat) m.proc.heapStart) (m' : Machine) :
    halloc place size m ≠ .error .endless m' := by
  intro hrun
  cases hv : wordValue (size.type = .number) size m with
  | error s m₁ =>
    rw [halloc, bind_error hv] at hrun
    cases hrun
    exact (((reader_wordValue _ size) m).error hv).1 rfl
  | ok v m₁ =>
    obtain ⟨t, rfl⟩ := (records_wordValue _ size).ok hv
    obtain ⟨u, hu⟩ := halloc_walk place hlimit hv
    have hends := h v (wordOf_some.mpr ⟨t, hv⟩)
    rw [← scan_endless] at hends
    rw [hrun] at hu
    split at hu
    · exact hends ‹_›
    · split at hu
      · cases hu
      · rename_i c _ _
        have hrest : Ends (do
            carve v.toNat c.toNat (sizeAt m.ram c)
            (← resolveWriteableArg place.type place.value).write
              (c + UInt16.ofNat heapHeaderBlockSize).toUInt8 : Exec Unit) :=
          .bind (silent_carve _ _ _).tidy.ends fun _ => (tidy_assign _ place).ends
        exact (hrest _).error hu.symm rfl

theorem hfree_ends {arg : RawArgument} (hlimit : m.proc.heapLimit.toNat + 2 ≤ ramSize)
    (h : ∀ v, wordOf (arg.type = .address) m arg = some v →
      guardOf v < ramSize ∧ (m.ram (guardOf v) = HeapReg.owned.toByte →
        ¬ Returns (coalesceNext m.proc.heapLimit) (m.proc.heapStart, marked m.ram v))) (m' : Machine) :
    hfree arg m ≠ .error .endless m' := by
  intro hrun
  cases hv : wordValue (arg.type = .address) arg m with
  | error s m₁ =>
    rw [hfree, bind_error hv] at hrun
    cases hrun
    exact (((reader_wordValue _ arg) m).error hv).1 rfl
  | ok v m₁ =>
    obtain ⟨t, rfl⟩ := (records_wordValue _ arg).ok hv
    obtain ⟨e, he⟩ := ((finishes_hfree hlimit hv).mpr (h v (wordOf_some.mpr ⟨t, hv⟩))).error hrun
    cases he

/-- **One `HALLOC` or `HFREE` ends exactly when the headers lead out.** -/
theorem heap_loops_end {codeSize : Nat} (hl : Loaded codeSize m.proc) (hgo : m.goesOn = true) :
    HeapLoopEnds m ↔ LeadsOut m := by
  have hlimit : (fetched m).proc.heapLimit.toNat + 2 ≤ ramSize := hl.limit_lt
  constructor
  · refine fun h => ⟨fun place size v hi hv => ?_, fun arg v hi hv => ?_⟩
    · obtain ⟨t, ht⟩ := wordOf_some.mp (show wordOf _ (fetched m) size = some v from hv)
      exact (finishes_scan hlimit).mp (h.halloc place size v t hi ht)
    · obtain ⟨t, ht⟩ := wordOf_some.mp (show wordOf _ (fetched m) arg = some v from hv)
      exact (finishes_hfree hlimit ht).mp (h.hfree arg v t hi ht)
  · refine fun h => ⟨fun m' hstep => ?_, fun place size v t hi ht => ?_, fun arg v t hi ht => ?_⟩
    · have hperform := Machine.step_error hl hgo hstep
      by_cases hlate : ChecksLate (current m)
      · cases hi : current m <;> rw [hi] at hlate hperform <;> try exact hlate.elim
        · exact ((ends_spush _) _).error hperform rfl
        · exact halloc_ends hlimit (fun v hv => h.halloc _ _ v hi hv) m' hperform
        · exact hfree_ends hlimit (fun v hv => h.hfree _ v hi hv) m' hperform
        · exact ((ends_call _) _).error hperform rfl
      · exact ((tidy_perform hlate).ends _).error hperform rfl
    · exact (finishes_scan hlimit).mpr (h.halloc place size v hi ((wordOf_some (m := fetched m)).mpr ⟨t, ht⟩))
    · exact (finishes_hfree hlimit ht).mpr (h.hfree arg v hi ((wordOf_some (m := fetched m)).mpr ⟨t, ht⟩))

end

theorem heap_loops_end_sixteen : HeapLoopEnds hallocMachine ↔ LeadsOut hallocMachine :=
  heap_loops_end (Session.fresh.load_loaded hallocSixteen_loads).1 (by decide)

/-- `MOV [26], 255`, `MOV [27], 253`, `MOV [28], 1`, `HALLOC A, 5`, `HALT`: the program makes
its first header a block of 65533 bytes that is owned. -/
def spinning : List MemCell :=
  [0, 2, 0x12, 4, 0, 26, 0, 255, 0x12, 4, 0, 27, 0, 253, 0x12, 4, 0, 28, 0, 1,
    0xC2, 1, 1, 0, 5, 0xFF]

def spinningMachine : Machine := .headless (freshVM spinning) (freshProcess spinning) ⟨[], false⟩

/-- What the machine holds when it comes to the `HALLOC`. -/
def comesToSpin (m : Machine) : Bool :=
  m.goesOn && (current m == .halloc ⟨.register, 1⟩ ⟨.number, 5⟩) && (m.proc.heapStart == 26) &&
    (m.proc.heapLimit == 1026) && (m.ram 26 == 255) && (m.ram 27 == 253) && (m.ram 28 == 1)

theorem heap_loops_end_spinning :
    VM.fresh.load spinning = .ok (freshProcess spinning, freshVM spinning) ∧
    ∃ m, Machine.system.after 3 spinningMachine = some m ∧
      current m = .halloc ⟨.register, 1⟩ ⟨.number, 5⟩ ∧ (∃ m', step m = .error .endless m') ∧
      ¬ HeapLoopEnds m := by
  have hload : VM.fresh.load spinning = _ := load_fresh (by decide)
  have hrun : (Machine.system.after 3 spinningMachine).any comesToSpin = true := by decide +kernel
  obtain ⟨m, hm, hspin⟩ := (Option.any_eq_true _ _).mp hrun
  simp only [comesToSpin, Bool.and_eq_true, beq_iff_eq] at hspin
  obtain ⟨⟨⟨⟨⟨⟨hgo, hi⟩, hstart⟩, hlimit⟩, hhigh⟩, hlow⟩, howned⟩ := hspin
  have hl : Loaded 26 m.proc :=
    (Machine.keeps_reaches ⟨3, hm⟩).layout.loaded (Session.fresh.load_loaded hload).1
  have hsize : sizeAt m.ram 26 = 65533 := by
    show (m.ram 26).toNat * 256 + (m.ram 27).toNat = _
    rw [hhigh, hlow]
    rfl
  have hround : scanNext m.ram m.proc.heapLimit 5 26 = some 26 := by
    rw [scanNext, hlimit, if_neg (by decide), if_neg fun h => h.1 howned, hsize]
    rfl
  have hback : Returns (scanNext m.ram m.proc.heapLimit 5) m.proc.heapStart := by
    rw [hstart]
    exact ⟨0, 1, 26, Nat.zero_lt_one, rfl, by rw [steps, hround]; rfl⟩
  have hv : wordValue ((⟨.number, 5⟩ : RawArgument).type = .number) ⟨.number, 5⟩ (fetched m) =
    .ok 5 (recorded (fetched m) (fetched m).touched) := rfl
  obtain ⟨u, hu⟩ := halloc_walk (m := fetched m) ⟨.register, 1⟩ hl.limit_lt hv
  have hstep : step m = .error .endless (recorded (fetched m) u) := by
    rw [Machine.step_fetched hl hgo, complete, hi]
    have hstop : stop (scanNext (fetched m).ram (fetched m).proc.heapLimit (UInt16.toNat 5)) loopFuel
        (fetched m).proc.heapStart = none := (scan_endless _ _ _ _).mpr hback
    rw [hstop] at hu
    exact bind_error hu
  exact ⟨hload, m, hm, hi, ⟨_, hstep⟩, fun h => h.ends _ hstep⟩

/-! ### What `HFREE` catches -/

/-- A pointer to the payload of an owned block of the row. -/
def OwnedPayload (m : Machine) (bs : List Block) (v : MemAddr) : Prop :=
  ∃ p b, (p, b) ∈ blocksAt m.proc.heapStart.toNat bs ∧ b.owned = true ∧ v.toNat = p + heapHeaderBlockSize

/-- What is promised of `HFREE`: it succeeds on the payload of an owned block only, and for
any other pointer it throws and leaves RAM as it was. -/
structure Caught (m : Machine) (bs : List Block) (v : MemAddr) : Prop where
  succeeds : ∀ m', step m = .ok () m' → OwnedPayload m bs v
  throws : ¬ OwnedPayload m bs v → ∃ e m', step m = .error (.throws e) m' ∧ m'.ram = m.ram

/-- **`HFREE` goes by one byte**: besides the payloads of owned blocks it handles rightly the
pointers for which that byte is in RAM and does not say owned. -/
theorem hfree_catches {m : Machine} {bs : List Block} (h : HeapChain m bs) (hgo : m.goesOn = true)
    {arg : RawArgument} (hi : current m = .hfree arg) {v : MemAddr}
    (hv : wordOf (arg.type = .address) m arg = some v) : Caught m bs v ↔
      OwnedPayload m bs v ∨ (guardOf v < ramSize ∧ m.ram (guardOf v) ≠ HeapReg.owned.toByte) := by
  obtain ⟨codeSize, hl⟩ := h.loaded
  obtain ⟨t, ht⟩ := wordOf_some.mp (show wordOf _ (fetched m) arg = some v from hv)
  obtain ⟨ram, u, hrun⟩ := hfree_walk (m := fetched m) hl.limit_lt ht
  have hstep : step m = complete (.hfree arg) (fetched m) := by
    rw [Machine.step_fetched hl hgo, hi]
  constructor
  · intro hcaught
    by_cases howned : OwnedPayload m bs v
    · exact .inl howned
    · obtain ⟨e, m', hthrow, _⟩ := hcaught.throws howned
      rw [hstep, complete, bind_run, show perform (.hfree arg) _ = _ from hrun] at hthrow
      right
      by_cases hin : ramSize ≤ guardOf v
      · rw [if_pos hin] at hthrow
        cases hthrow
      · rw [if_neg hin] at hthrow
        refine ⟨Nat.not_le.mp hin, fun hmark => ?_⟩
        rw [if_neg (not_not.mpr (show (fetched m).ram (guardOf v) = _ from hmark))] at hthrow
        cases hstop : stop (coalesceNext (fetched m).proc.heapLimit) loopFuel
            ((fetched m).proc.heapStart, marked (fetched m).ram v) <;> rw [hstop] at hthrow <;> cases hthrow
  · rintro (howned | ⟨hin, hfree⟩)
    · exact ⟨fun _ _ => howned, fun hn => absurd howned hn⟩
    · have hthrow : step m = .error (.throws .freeingFree) (recorded (fetched m) u) := by
        rw [hstep]
        refine bind_error (hrun.trans ?_)
        rw [if_neg (Nat.not_le.mpr hin), if_pos (show (fetched m).ram (guardOf v) ≠ _ from hfree)]
      refine ⟨fun m' hok => ?_, fun _ => ⟨_, _, hthrow, rfl⟩⟩
      rw [hthrow] at hok
      cases hok

/-- `HFREE [9]`, `HALT` and the bytes 1, 0, 8. -/
def freesCode : List MemCell := [0, 2, 0xA1, 4, 0, 9, 0xFF, 1, 0, 8]

def freesCodeMachine : Machine := .boot (freshVM freesCode) (freshProcess freesCode) ⟨[], false⟩ .null []

theorem freesCode_loads : VM.fresh.load freesCode = .ok (freshProcess freesCode, freshVM freesCode) :=
  load_fresh (by decide)

theorem freesCode_chain : HeapChain freesCodeMachine [⟨1000, false⟩] :=
  (heapInv_load .fresh freesCode_loads ⟨[], false⟩ .null []).toHeapChain

/-- The operand `[9]`, which is 8. -/
def nine : RawArgument := ⟨.indirectMem, 9⟩

theorem freesCode_current : current freesCodeMachine = .hfree nine := by decide

theorem freesCode_pointer : wordOf (nine.type = .address) freesCodeMachine nine = some 8 := by decide

theorem hfree_catches_nine : Caught freesCodeMachine [⟨1000, false⟩] 8 ↔
    OwnedPayload freesCodeMachine [⟨1000, false⟩] 8 ∨
      (guardOf 8 < ramSize ∧ freesCodeMachine.ram (guardOf 8) ≠ HeapReg.owned.toByte) :=
  hfree_catches freesCode_chain (by decide) freesCode_current freesCode_pointer

/-- The pointer 8 is into the code, where byte 7 happens to be 1: it is accepted, and that
byte is written. -/
theorem hfree_catches_code : HeapChain freesCodeMachine [⟨1000, false⟩] ∧
    current freesCodeMachine = .hfree nine ∧
    wordOf (nine.type = .address) freesCodeMachine nine = some 8 ∧
    (∃ m', step freesCodeMachine = .ok () m' ∧ freesCodeMachine.ram 7 = 1 ∧ m'.ram 7 = 0) ∧
    ¬ Caught freesCodeMachine [⟨1000, false⟩] 8 := by
  have hl : Loaded 10 freesCodeMachine.proc := (Session.fresh.load_loaded freesCode_loads).1
  obtain ⟨t, ht⟩ := (wordOf_some (m := fetched freesCodeMachine)).mp freesCode_pointer
  obtain ⟨ram, u, hrun⟩ := hfree_walk (m := fetched freesCodeMachine) hl.limit_lt ht
  have hnone : coalesceNext (fetched freesCodeMachine).proc.heapLimit
      ((fetched freesCodeMachine).proc.heapStart, marked (fetched freesCodeMachine).ram 8) = none :=
    Option.isNone_iff_eq_none.mp (by decide)
  have hstop : stop (coalesceNext (fetched freesCodeMachine).proc.heapLimit) loopFuel
      ((fetched freesCodeMachine).proc.heapStart, marked (fetched freesCodeMachine).ram 8) =
        some ((fetched freesCodeMachine).proc.heapStart, marked (fetched freesCodeMachine).ram 8) := by
    obtain ⟨k, hk⟩ := Nat.exists_eq_succ_of_ne_zero (lt_loopFuel (by decide : 0 < 65536)).ne'
    rw [hk, stop, hnone]
  rw [if_neg (by decide), if_neg (by decide), hstop] at hrun
  have hstep := Machine.step_fetched hl (by decide)
  rw [complete, freesCode_current, bind_ok (show perform (.hfree nine) _ = .ok () _ from hrun)] at hstep
  refine ⟨freesCode_chain, freesCode_current, freesCode_pointer, ⟨_, hstep, by decide, rfl⟩, fun h => ?_⟩
  obtain ⟨p, b, hb, howned, _⟩ := h.succeeds _ hstep
  obtain ⟨rfl, rfl⟩ := Prod.mk.inj (List.mem_singleton.mp hb)
  cases howned

end CustomIsaVm
