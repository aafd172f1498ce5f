import CustomIsaVm.Machine.HeapExact

/-! How much of the heap can be had.

First fit may leave the free bytes scattered, but not arbitrarily: `HFREE` merges
neighbours, so between `k` owned blocks there are at most `k + 1` gaps. From the number
and the sizes of the blocks a program holds follows a request that `HALLOC` is certain to
serve, wherever the blocks lie, and one that it is certain to refuse (`halloc_bounds`). -/
namespace CustomIsaVm
open Effect Exec Blocks

/-- The bytes that the owned blocks of a row take, headers included. -/
def held (bs : List Block) : Nat := span heapHeaderBlockSize (ownedOf bs)

variable {m : Machine} {bs : List Block} {place size : RawArgument} {v : MemAddr}

/-- With enough room for each gap to be short, the request is served. -/
theorem halloc_certain {r : Fin 5} (h : HeapInv m bs) (hgo : m.goesOn = true) (hi : current m = .halloc place size)
    (hplace : place.type = .register) (hr : registerOf place.value = some r)
    (hv : wordOf (size.type = .number) m size = some v)
    (hroom : held bs + ((ownedOf bs).length + 1) * (v.toNat + 2) < 1003) :
    ∃ m' front b back, m.next = .ok m' ∧ bs = front ++ b :: back ∧ Allocated m m' place size v front b back := by
  have hblock : heapHeaderBlockSize = 3 := rfl
  have hspan : span heapHeaderBlockSize (ownedOf bs) +
      ((ownedOf bs).length + 1) * (heapHeaderBlockSize + v.toNat - 1) < span heapHeaderBlockSize bs := by
    rw [h.total, show heapHeaderBlockSize + v.toNat - 1 = v.toNat + 2 by omega]
    exact hroom
  obtain ⟨b, hb, hserves⟩ := exists_serves h.separated hspan
  obtain ⟨t, hword⟩ := wordValue_fetched hv
  obtain ⟨m', hnext⟩ : ∃ m', m.next = .ok m' := by
    cases ha : allocate heapHeaderBlockSize v.toNat bs with
    | none => exact absurd hserves (allocate_none ha b hb)
    | some bs' =>
      obtain ⟨front, c, back, rfl, hfront, hc, -⟩ := allocate_some ha
      exact halloc_completes h hgo hi hplace hr hword hfront hc
  obtain ⟨w, front, c, back, hrow, halloc⟩ := halloc_next h hi hplace hnext
  -- the turn has read the size that was asked for
  obtain ⟨u, hrequest⟩ := halloc.request
  cases hword.symm.trans hrequest
  exact ⟨m', front, c, back, hnext, hrow, halloc⟩

/-- A request longer than what is not held is refused. -/
theorem halloc_hopeless (h : HeapInv m bs) (hgo : m.goesOn = true) (hi : current m = .halloc place size)
    (hv : wordOf (size.type = .number) m size = some v) (hshort : 1003 < held bs + 3 + v.toNat) :
    m.next = .error (.stopped (.throws .heapOverflow)) := by
  obtain ⟨codeSize, hl⟩ := h.loaded
  obtain ⟨t, hword⟩ := wordValue_fetched hv
  have hspan : span heapHeaderBlockSize bs < span heapHeaderBlockSize (ownedOf bs) + heapHeaderBlockSize + v.toNat := by
    rw [h.total]
    exact hshort
  have hnone : ∀ b ∈ bs, ¬ Serves v.toNat b := fun b hb => not_serves_of_span hspan hb
  obtain ⟨u, hraise⟩ := halloc_raises place (h.congr (fetched_layout m) rfl) hword hnone
  have hperform : perform (current m) (fetched m) =
      .error (.throws .heapOverflow) (recorded (fetched m) u) := by
    rw [hi]
    exact hraise
  exact Machine.next_error_of_perform hl hgo hperform

/-- **What `HALLOC` is certain to serve, and certain to refuse.** In every run by the heap
instructions, a program that holds `k` blocks of together `s` bytes (headers included) gets
`n` bytes whenever `s + (k + 1) * (n + 2) < 1003`, however the blocks are scattered: those
of the first free block that is long enough. When `1003 < s + 3 + n` it never does. -/
theorem halloc_bounds {vm vm' : VM} {procs : List Process} {bytecode : List MemCell} {p : Process}
    (hs : Session vm procs) (hload : vm.load bytecode = .ok (p, vm')) (cin : Stdin) (handle : Window)
    (events : List WindowEvent) {m : Machine} (hrun : HeapRun (.boot vm' p cin handle events) m) :
    ∃ bs, HeapChain m bs ∧ ∀ r place size v, m.goesOn = true → current m = .halloc place size →
      wordOf (size.type = .number) m size = some v →
      (place.type = .register → registerOf place.value = some r →
        held bs + ((ownedOf bs).length + 1) * (v.toNat + 2) < 1003 →
        ∃ m' front b back, m.next = .ok m' ∧ bs = front ++ b :: back ∧
          Allocated m m' place size v front b back) ∧
      (1003 < held bs + 3 + v.toNat → m.next = .error (.stopped (.throws .heapOverflow))) := by
  obtain ⟨bs, h⟩ := heapRun_inv hrun (heapInv_load hs hload cin handle events)
  exact ⟨bs, h.toHeapChain, fun r place size v hgo hi hv =>
    ⟨fun hplace hr hroom => halloc_certain h hgo hi hplace hr hv hroom,
      fun hshort => halloc_hopeless h hgo hi hv hshort⟩⟩

/-- With one block held, twenty bytes are there, and they are taken behind it. -/
theorem halloc_bounds_gapped : ∃ m', gapped.next = .ok m' ∧
    HeapChain m' [⟨16, false⟩, ⟨16, true⟩, ⟨20, true⟩, ⟨939, false⟩] := by
  obtain ⟨bs, hchain, hbounds⟩ := halloc_bounds .fresh hallocGap_loads ⟨[], false⟩ .null [] gapped_run
  obtain rfl := hchain.unique gapped_inv.toHeapChain
  obtain ⟨m', front, b, back, hnext, hrow, halloc⟩ :=
    (hbounds 2 _ _ 20 (by decide +kernel) gapped_current rfl).1 rfl rfl (by decide)
  exact ⟨m', hnext, gapped_carved hrow halloc.first halloc.serves ▸ halloc.inv.toHeapChain⟩

end CustomIsaVm
