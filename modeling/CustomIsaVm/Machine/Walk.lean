import Mathlib.Data.Fintype.BigOperators
import CustomIsaVm.Lib.Orbit
import CustomIsaVm.Machine.Heap

/-! The loops of the heap instructions, over any RAM contents.

`scanNext` and `coalesceNext` are one round of the loop of `HALLOC` and of `HFREE`
as functions of the cursor and of RAM, with no assumption on the headers: a program
may have written over them. `hallocScan_walk` and `coalesce_walk` say that the loops
go where these functions lead, and `scan_endless` and `coalesce_endless` that they run
out of fuel exactly when they come back to a state. -/
namespace CustomIsaVm

open Effect Exec Orbit

/-! ### Headers -/

/-- The size that RAM holds at a header. -/
def sizeAt (ram : Nat → MemCell) (a : MemAddr) : Nat :=
  (ram a.toNat).toNat * 256 + (ram (a.toNat + 1)).toNat

/-- The status byte of a header. -/
def statusAt (ram : Nat → MemCell) (a : MemAddr) : MemCell := ram (a.toNat + 2)

/-- One round of the search of `HALLOC`. -/
def scanNext (ram : Nat → MemCell) (limit : MemAddr) (n : Nat) (cursor : MemAddr) : Option MemAddr :=
  if limit ≤ cursor then none
  else if statusAt ram cursor ≠ HeapReg.owned.toByte ∧ n ≤ sizeAt ram cursor then none
  else some (nextChunk cursor (sizeAt ram cursor))

/-- One round of the loop of `HFREE`, which also writes. -/
def coalesceNext (limit : MemAddr) : MemAddr × (Nat → MemCell) → Option (MemAddr × (Nat → MemCell))
  | (cursor, ram) =>
    let next := nextChunk cursor (sizeAt ram cursor)
    if ¬ cursor < limit ∨ ¬ next < limit then none
    else if statusAt ram cursor = HeapReg.free.toByte ∧ statusAt ram next = HeapReg.free.toByte then
      some (cursor, resized ram cursor.toNat (sizeAt ram cursor + heapHeaderBlockSize + sizeAt ram next))
    else some (next, ram)

section
variable {m : Machine} {ram : Nat → MemCell} {limit cursor : MemAddr}

theorem header_any {a : MemAddr} (h : a.toNat + 2 < ramSize) (t : List Access) :
    ∃ u, header a (recorded m t) = .ok (sizeAt m.ram a, statusAt m.ram a) (recorded m u) :=
  header_ram h t

/-- Below the limit a header lies in RAM. -/
theorem header_lt (hlimit : limit.toNat + 2 ≤ ramSize) (h : cursor < limit) :
    cursor.toNat + 2 < ramSize := by
  rw [UInt16.lt_iff_toNat_lt] at h
  omega

/-! ### `HALLOC` -/

/-- The search goes where the headers lead. -/
theorem hallocScan_walk (hlimit : m.proc.heapLimit.toNat + 2 ≤ ramSize) (n fuel : Nat) (cursor : MemAddr)
    (t : List Access) : ∃ u, hallocScan n fuel cursor (recorded m t) =
      match stop (scanNext m.ram m.proc.heapLimit n) fuel cursor with
      | none => .error .endless (recorded m u)
      | some c => if m.proc.heapLimit ≤ c then .error (.throws .heapOverflow) (recorded m u)
        else .ok (c, sizeAt m.ram c) (recorded m u) := by
  induction fuel generalizing cursor t with
  | zero => exact ⟨t, rfl⟩
  | succ fuel ih =>
    rw [hallocScan, bind_ok (get_run _), recorded_proc, stop, scanNext]
    by_cases hpast : m.proc.heapLimit ≤ cursor
    · refine ⟨t, ?_⟩
      rw [if_pos hpast]
      dsimp only
      rw [if_pos hpast]
      exact bind_error (raiseIf_raises hpast)
    · obtain ⟨u, hu⟩ := header_any (m := m) (header_lt hlimit (UInt16.not_le.mp hpast)) t
      rw [bind_ok (raiseIf_run hpast), bind_ok hu, if_neg hpast]
      obtain ⟨w, hw⟩ := ih (nextChunk cursor (sizeAt m.ram cursor)) u
      dsimp only
      by_cases howned : statusAt m.ram cursor = HeapReg.owned.toByte
      · rw [if_pos howned, if_neg (fun h => h.1 howned)]
        exact ⟨w, hw⟩
      · rw [if_neg howned]
        by_cases hn : n ≤ sizeAt m.ram cursor
        · rw [if_pos hn, if_pos ⟨howned, hn⟩]
          refine ⟨u, ?_⟩
          dsimp only
          rw [if_neg hpast]
          rfl
        · rw [if_neg hn, if_neg fun h => hn h.2]
          exact ⟨w, hw⟩

theorem card_addresses : Fintype.card (Fin UInt16.size) ≤ loopFuel := by
  rw [Fintype.card_fin]
  exact Nat.succ_le_of_lt (lt_loopFuel (by decide : 65535 < 65536))

/-- The search runs for ever exactly when its cursor comes back. -/
theorem scan_endless (ram : Nat → MemCell) (limit : MemAddr) (n : Nat) (cursor : MemAddr) :
    stop (scanNext ram limit n) loopFuel cursor = none ↔ Returns (scanNext ram limit n) cursor :=
  stop_iff (P := fun _ => True) UInt16.toFin (fun _ _ _ _ => trivial)
    (fun _ _ _ _ h => UInt16.toFin_inj.mp h) trivial card_addresses

/-! ### `HFREE` -/

/-- One round of the loop. -/
theorem coalesce_round (hlimit : m.proc.heapLimit.toNat + 2 ≤ ramSize) (fuel : Nat) (cursor : MemAddr)
    (t : List Access) : ∃ u, coalesce (fuel + 1) cursor (recorded m t) =
      match coalesceNext m.proc.heapLimit (cursor, m.ram) with
      | none => .ok () (recorded m u)
      | some s => coalesce fuel s.1 (recorded (withRam m s.2) u) := by
  rw [coalesce, bind_ok (get_run _), recorded_proc, coalesceNext]
  dsimp only
  by_cases hlt : cursor < m.proc.heapLimit
  · obtain ⟨u, hu⟩ := header_any (m := m) (header_lt hlimit hlt) t
    rw [if_pos hlt]
    by_cases hnext : nextChunk cursor (sizeAt m.ram cursor) < m.proc.heapLimit
    · obtain ⟨w, hw⟩ := header_any (m := m) (header_lt hlimit hnext) u
      rw [if_neg (by simp [hlt, hnext])]
      by_cases hfree : statusAt m.ram cursor = HeapReg.free.toByte ∧
          statusAt m.ram (nextChunk cursor (sizeAt m.ram cursor)) = HeapReg.free.toByte
      · have hcursor := header_lt hlimit hlt
        obtain ⟨x, hx⟩ := store_run (m := recorded m w) (v := highByte (sizeAt m.ram cursor +
          heapHeaderBlockSize + sizeAt m.ram (nextChunk cursor (sizeAt m.ram cursor)))) .store
          (show cursor.toNat < ramSize by omega)
        obtain ⟨y, hy⟩ := store_run (m := recorded (put m (highByte (sizeAt m.ram cursor +
          heapHeaderBlockSize + sizeAt m.ram (nextChunk cursor (sizeAt m.ram cursor))))
          (.ram cursor.toNat)) x) (v := lowByte (sizeAt m.ram cursor +
          heapHeaderBlockSize + sizeAt m.ram (nextChunk cursor (sizeAt m.ram cursor)))) .store
          (show cursor.toNat + 1 < ramSize by omega)
        refine ⟨y, ?_⟩
        rw [if_pos hfree]
        refine (bind_ok hu).trans ?_
        dsimp only
        rw [if_pos hnext]
        refine (bind_ok hw).trans ?_
        dsimp only
        rw [if_pos hfree]
        exact (bind_ok hx).trans (bind_ok hy)
      · refine ⟨w, ?_⟩
        rw [if_neg hfree]
        refine (bind_ok hu).trans ?_
        dsimp only
        rw [if_pos hnext]
        refine (bind_ok hw).trans ?_
        dsimp only
        rw [if_neg hfree]
        rfl
    · refine ⟨u, ?_⟩
      rw [if_pos (.inr hnext)]
      refine (bind_ok hu).trans ?_
      dsimp only
      rw [if_neg hnext]
      rfl
  · exact ⟨t, by rw [if_neg hlt, if_pos (.inl hlt)]; rfl⟩

/-- The loop goes where the headers lead, and leaves RAM as they say. -/
theorem coalesce_walk (hlimit : m.proc.heapLimit.toNat + 2 ≤ ramSize) (fuel : Nat) (cursor : MemAddr)
    (ram : Nat → MemCell) (t : List Access) : ∃ ram' u, coalesce fuel cursor (recorded (withRam m ram) t) =
      match stop (coalesceNext m.proc.heapLimit) fuel (cursor, ram) with
      | none => .error .endless (recorded (withRam m ram') u)
      | some s => .ok () (recorded (withRam m s.2) u) := by
  induction fuel generalizing cursor ram t with
  | zero => exact ⟨ram, t, rfl⟩
  | succ fuel ih =>
    obtain ⟨u, hu⟩ := coalesce_round (m := withRam m ram) hlimit fuel cursor t
    rw [hu, stop]
    cases hs : coalesceNext m.proc.heapLimit (cursor, ram) with
    | none =>
      refine ⟨ram, u, ?_⟩
      simp only [show coalesceNext (withRam m ram).proc.heapLimit (cursor, (withRam m ram).ram) = none from hs]
    | some s =>
      obtain ⟨ram', w, hw⟩ := ih s.1 s.2 u
      refine ⟨ram', w, ?_⟩
      simp only [show coalesceNext (withRam m ram).proc.heapLimit (cursor, (withRam m ram).ram) = some s from hs]
      exact hw

/-- What RAM holds, as a value. -/
def contents (ram : Nat → MemCell) : Fin ramSize → Fin UInt8.size := fun i => (ram i).toFin

theorem card_states : Fintype.card (Fin UInt16.size × (Fin ramSize → Fin UInt8.size)) ≤ loopFuel := by
  rw [Fintype.card_prod, Fintype.card_fun, Fintype.card_fin, Fintype.card_fin, Fintype.card_fin]
  unfold loopFuel
  have hpow : UInt8.size ^ ramSize ≤ 256 ^ ramSize := Nat.pow_le_pow_left (by decide) ramSize
  exact Nat.mul_le_mul (by decide) hpow

/-- The loop writes headers below the limit only. -/
theorem coalesceNext_above {limit : MemAddr} {s s' : MemAddr × (Nat → MemCell)}
    (hlimit : limit.toNat + 2 ≤ ramSize) (h : coalesceNext limit s = some s') {i : Nat}
    (hi : ramSize ≤ i) : s'.2 i = s.2 i := by
  obtain ⟨cursor, ram⟩ := s
  rw [coalesceNext] at h
  split at h
  · cases h
  · rename_i hin
    have hcursor := header_lt hlimit (not_not.mp fun hn => hin (.inl hn))
    split at h
    · cases h
      exact resized_outside (by omega)
    · cases h
      rfl

/-- The loop runs for ever exactly when it comes back to a cursor and to the RAM of
then. -/
theorem coalesce_endless {limit : MemAddr} (hlimit : limit.toNat + 2 ≤ ramSize) (cursor : MemAddr)
    (ram : Nat → MemCell) : stop (coalesceNext limit) loopFuel (cursor, ram) = none ↔
      Returns (coalesceNext limit) (cursor, ram) := by
  refine stop_iff (P := fun s => ∀ i, ramSize ≤ i → s.2 i = ram i)
    (fun s => (s.1.toFin, contents s.2)) (fun s s' hs h i hi => ?_) (fun s s' hs hs' h => ?_)
    (fun _ _ => rfl) card_states
  · rw [coalesceNext_above hlimit h hi, hs i hi]
  · obtain ⟨hcursor, hram⟩ := Prod.mk.inj h
    refine Prod.ext (UInt16.toFin_inj.mp hcursor) (funext fun i => ?_)
    by_cases hi : i < ramSize
    · exact UInt8.toFin_inj.mp (congrFun hram ⟨i, hi⟩)
    · rw [hs i (by omega), hs' i (by omega)]

end
end CustomIsaVm
