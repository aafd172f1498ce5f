import CustomIsaVm.Lib.Calls
import CustomIsaVm.Machine.Checked

/-! Programs with subroutines.

`CALL` and `RET` share the stack with `SPUSH` and `SPOP`, and nothing in `exec` keeps them
apart: a byte pushed and not popped is half of the next return address. `StackTyped` asks
for one number at each place of the code, the bytes that the running subroutine has
pushed there, and that the instructions agree on them. Then a run is a run of the code's
`flow`, on the places where the running subroutine is and where its callers wait, and the
stack is what `Framed` says of these (`subroutines_safe`); a bound read off the flow is a
bound for the stack (`stack_suffices`). Of `CALL` this asks where the process is loaded,
since it takes its operand for an address of RAM. -/
namespace CustomIsaVm
open Effect Exec
open Calls (Flow Step under Bounded)
open Relation (ReflTransGen)

/-! ### What is asked of an image -/

/-- The address in RAM of a subroutine, which begins with nothing pushed. -/
def CallOperand (base data : Nat) (ds : List Decoded) (height : Nat → Nat) (a : RawArgument) : Prop :=
  a.type = .address ∧ base ≤ a.value.toNat ∧ a.value.toNat - base ∈ starts data ds ∧
    height (a.value.toNat - base) = 0

/-- The instruction at `k`, before the one at `next`, agrees with the heights. -/
def StackSorted (base data : Nat) (ds : List Decoded) (height : Nat → Nat) (k next : Nat) : Instruction → Prop
  | .spush arg => SourceOperand data arg ∧ height next = height k + stackWidth arg.type
  | .spop arg => DataOperand data arg ∧ height k = height next + stackWidth arg.type
  | .call arg => CallOperand base data ds height arg ∧ height next = height k
  | .ret => height k = 0
  | .jmp arg => TargetOperand data ds arg ∧ height arg.value.toNat = height k
  | .je arg | .jne arg | .jg arg | .jng arg =>
    TargetOperand data ds arg ∧ height arg.value.toNat = height k ∧ height next = height k
  | .halt => True
  | i => WellSorted data ds i ∧ height next = height k

instance (base data : Nat) (ds : List Decoded) (height : Nat → Nat) (a : RawArgument) :
    Decidable (CallOperand base data ds height a) :=
  inferInstanceAs (Decidable (a.type = .address ∧ base ≤ a.value.toNat ∧ a.value.toNat - base ∈ starts data ds ∧
    height (a.value.toNat - base) = 0))

instance (base data : Nat) (ds : List Decoded) (height : Nat → Nat) (k next : Nat) :
    (i : Instruction) → Decidable (StackSorted base data ds height k next i)
  | .spush arg => inferInstanceAs (Decidable (SourceOperand data arg ∧ height next = height k + stackWidth arg.type))
  | .spop arg => inferInstanceAs (Decidable (DataOperand data arg ∧ height k = height next + stackWidth arg.type))
  | .call arg => inferInstanceAs (Decidable (CallOperand base data ds height arg ∧ height next = height k))
  | .ret => inferInstanceAs (Decidable (height k = 0))
  | .jmp arg => inferInstanceAs (Decidable (TargetOperand data ds arg ∧ height arg.value.toNat = height k))
  | .je arg | .jne arg | .jg arg | .jng arg => inferInstanceAs (Decidable
    (TargetOperand data ds arg ∧ height arg.value.toNat = height k ∧ height next = height k))
  | .halt => .isTrue trivial
  | .nop | .printflush | .mov _ _ | .add _ _ | .sub _ _ | .mul _ _ | .div _ _ | .cmp _ _ | .print _ | .input _
  | .halloc _ _ | .hfree _ | .fbset _ _ | .fbsync | .unknown _ => inferInstanceAs (Decidable (_ ∧ _))

/-- Where an image begins to run. -/
def entryOf : List MemCell → Nat
  | high :: low :: _ => (word high low).toNat
  | _ => 0

structure StackTyped (base data : Nat) (image : List MemCell) (ds : List Decoded) (height : Nat → Nat) : Prop
    extends Sectioned data image ds where
  outermost : height (entryOf image) = 0
  sorts : ∀ x ∈ listing data ds,
    StackSorted base data ds height x.1 (x.1 + (1 + encodedSize x.2.2)) x.2.instruction

/-! ### Where control goes -/

/-- From an instruction before the one at `next`, within a subroutine. -/
def Continues (next k' : Nat) : Instruction → Prop
  | .jmp arg => k' = arg.value.toNat
  | .je arg | .jne arg | .jg arg | .jng arg => k' = next ∨ k' = arg.value.toNat
  | .halt | .call _ | .ret => False
  | _ => k' = next

/-- What the code says of it. -/
def flow (base data : Nat) (ds : List Decoded) : Flow Nat where
  goes k k' := ∃ d, (k, d) ∈ listing data ds ∧ Continues (k + (1 + encodedSize d.2)) k' d.instruction
  calls k t j := ∃ d arg, (k, d) ∈ listing data ds ∧ d.instruction = .call arg ∧ arg.value.toNat = base + t ∧
    j = k + (1 + encodedSize d.2)
  returns k := ∃ d, (k, d) ∈ listing data ds ∧ d.instruction = .ret

theorem listing_next {o k : Nat} {d : Decoded} {ds : List Decoded} (h : (k, d) ∈ listing o ds) :
    k + (1 + encodedSize d.2) ∈ starts o ds := by
  induction ds generalizing o with
  | nil => cases h
  | cons e ds ih =>
    refine List.mem_cons_of_mem o ?_
    rcases List.mem_cons.mp h with heq | h
    · cases heq
      cases ds <;> exact List.mem_cons_self ..
    · exact ih h

/-- Callers go on behind a `CALL`. -/
theorem behind_call {base data entry : Nat} {ds : List Decoded} {row : List Nat}
    (h : ReflTransGen (Step (flow base data ds)) [entry] row) : ∀ j ∈ row.tail, j ∈ starts data ds ∧
      ∃ k d arg, (k, d) ∈ listing data ds ∧ d.instruction = .call arg ∧ j = k + (1 + encodedSize d.2) := by
  induction h with
  | refl => nofun
  | tail _ hstep ih =>
    cases hstep with
    | go => exact ih
    | call hcalls =>
      obtain ⟨d, arg, hd, hcall, -, rfl⟩ := hcalls
      intro j hj
      rcases List.mem_cons.mp hj with rfl | hj
      · exact ⟨listing_next hd, _, d, arg, hd, hcall, rfl⟩
      · exact ih j hj
    | ret => exact fun j hj => ih j (List.mem_cons_of_mem _ hj)

/-- The stack of a subroutine at `k`: as many bytes as it has pushed, and under them, for
each of its callers, the address it goes on at and as many bytes as it has pushed. -/
def Framed (base : Nat) (height : Nat → Nat) : Nat → List Nat → List MemCell → Prop
  | k, [], s => s.length = height k
  | k, j :: js, s => ∃ own high low caller, s = own ++ high :: low :: caller ∧ own.length = height k ∧
    (word high low).toNat = base + j ∧ Framed base height j js caller

namespace Framed
variable {base : Nat} {height : Nat → Nat} {k next : Nat} {js : List Nat} {s bytes : List MemCell}

theorem length (h : Framed base height k js s) : s.length = height k + under 2 height js := by
  induction js generalizing k s with
  | nil => exact h
  | cons j js ih =>
    obtain ⟨own, high, low, caller, rfl, hown, -, hcaller⟩ := h
    have := ih hcaller
    simp only [List.length_append, List.length_cons, under]
    omega

theorem push (h : Framed base height k js s) (heq : height next = height k + bytes.length) :
    Framed base height next js (bytes ++ s) := by
  cases js with
  | nil =>
    have h : s.length = height k := h
    show (bytes ++ s).length = height next
    rw [List.length_append]
    omega
  | cons j js =>
    obtain ⟨own, high, low, caller, rfl, hown, hreturn, hcaller⟩ := h
    refine ⟨bytes ++ own, high, low, caller, by rw [List.append_assoc], ?_, hreturn, hcaller⟩
    rw [List.length_append]
    omega

theorem keep (h : Framed base height k js s) (heq : height next = height k) : Framed base height next js s :=
  show Framed base height next js ([] ++ s) from h.push heq

theorem pop (h : Framed base height k js s) {n : Nat} (heq : height k = height next + n) :
    n ≤ s.length ∧ Framed base height next js (s.drop n) := by
  refine ⟨by rw [h.length]; omega, ?_⟩
  cases js with
  | nil =>
    have h : s.length = height k := h
    show (s.drop n).length = height next
    rw [List.length_drop]
    omega
  | cons j js =>
    obtain ⟨own, high, low, caller, rfl, hown, hreturn, hcaller⟩ := h
    refine ⟨own.drop n, high, low, caller, List.drop_append_of_le_length (by omega), ?_, hreturn, hcaller⟩
    rw [List.length_drop]
    omega

/-- With nothing pushed, the return address is on top. -/
theorem leave {j : Nat} (h : Framed base height k (j :: js) s) (hzero : height k = 0) :
    ∃ high low caller, s = high :: low :: caller ∧ (word high low).toNat = base + j ∧
      Framed base height j js caller := by
  obtain ⟨own, high, low, caller, rfl, hown, hreturn, hcaller⟩ := h
  rw [List.eq_nil_of_length_eq_zero (hown.trans hzero)]
  exact ⟨high, low, caller, rfl, hreturn, hcaller⟩

end Framed

/-! ### Turns -/

section Turns
variable {base data : Nat} {image : List MemCell} {ds : List Decoded} {height : Nat → Nat} {k next : Nat}
  {i : Instruction} {m m' : Machine} {js : List Nat} {s s' : List MemCell}

theorem StackSorted.cases (h : StackSorted base data ds height k next i) :
    WellSorted data ds i ∨ (∃ arg, i = .call arg) ∨ i = .ret := by
  cases i with
  | call arg => exact .inr (.inl ⟨arg, rfl⟩)
  | ret => exact .inr (.inr rfl)
  | halt => exact .inl trivial
  | _ => exact .inl h.1

/-- **An instruction that agrees with the heights takes frames to frames.** -/
theorem StackSorted.frames (h : StackSorted base data ds height k next i) (hw : WellSorted data ds i)
    (hmove : StackMove s s' i) (hgoes : Goes data ds m m' i) (hrunning : m'.proc.running = true)
    (hpc : m.proc.pc.toNat = m.proc.firstSector.toNat + next) (hf : Framed base height k js s) :
    ∃ k', m'.proc.pc.toNat = m.proc.firstSector.toNat + k' ∧ Continues next k' i ∧
      Framed base height k' js s' := by
  have hstays : m'.proc.pc = m.proc.pc → m'.proc.pc.toNat = m.proc.firstSector.toNat + next := fun heq => heq ▸ hpc
  cases i with
  | spush arg =>
    obtain ⟨bytes, hlength, rfl⟩ := hmove
    exact ⟨next, hstays hgoes, rfl, hf.push (by rw [hlength]; exact h.2)⟩
  | spop arg =>
    obtain ⟨-, rfl⟩ := hmove
    exact ⟨next, hstays hgoes, rfl, (hf.pop h.2).2⟩
  | jmp arg =>
    cases hmove
    exact ⟨_, hgoes.2, rfl, hf.keep h.2⟩
  | je arg | jne arg | jg arg | jng arg =>
    cases hmove
    rcases hgoes with hgoes | hgoes
    · exact ⟨next, hstays hgoes, .inl rfl, hf.keep h.2.2⟩
    · exact ⟨_, hgoes.2, .inr rfl, hf.keep h.2.1⟩
  | halt => exact absurd (hrunning.symm.trans hgoes.2) (by decide)
  | call | ret => exact hw.elim
  | _ =>
    cases hmove
    exact ⟨next, hstays hgoes, rfl, hf.keep h.2⟩

/-- Only the stack has been written to. -/
theorem Guarded.onStack (h : Guarded data image m) (hinside : data ≤ image.length) (hnext : m.next = .ok m')
    (hs : Stacked m s) (hs' : Stacked m' s')
    (hram : ∀ i, ¬ (m'.proc.sp.toNat ≤ i ∧ i < m.proc.sp.toNat) → m'.ram i = m.ram i) :
    Guarded data image m' := by
  have hkeeps := Machine.keeps_next hnext
  refine h.write hinside hkeeps.layout hs' hkeeps.window fun i hi => .inr ?_
  obtain ⟨hlow, hhigh⟩ := not_not.mp fun hout => hi (hram i hout)
  have hlimit := hs'.sp.1
  rw [hkeeps.layout.stackLimit] at hlimit
  exact ⟨hlimit.trans hlow, Nat.lt_of_lt_of_le hhigh hs.sp.2⟩

end Turns

/-- The run has come to `k :: js` in the flow of the code, and the stack is framed. -/
structure Stands (base data : Nat) (ds : List Decoded) (height : Nat → Nat) (entry k : Nat) (js : List Nat)
    (m : Machine) : Prop where
  pc : m.proc.pc.toNat = base + k
  run : ReflTransGen (Step (flow base data ds)) [entry] (k :: js)
  stack : ∃ s, Stacked m s ∧ Framed base height k js s

/-- PC is at a start, and where a run of the flow has come to, unless the program has halted. -/
structure InFrames (base data : Nat) (image : List MemCell) (ds : List Decoded) (height : Nat → Nat) (entry : Nat)
    (m : Machine) : Prop extends OnTrack data image ds m where
  sector : m.proc.firstSector.toNat = base
  stands : m.proc.running = true → ∃ k js, Stands base data ds height entry k js m

/-- How such a program can end: it overflows the stack only where the flow needs more than
there is, and underflows it only by a `RET` that no `CALL` has led to. -/
def Ending.InOrder (base data : Nat) (ds : List Decoded) (height : Nat → Nat) (entry : Nat) (m : Machine) :
    Ending → Prop
  | .halted | .unhalted => True
  | .stopped e => e = .throws .divideByZero ∨
    (e = .throws .stackOverflow ∧ ∃ k js, ReflTransGen (Step (flow base data ds)) [entry] (k :: js) ∧
      VMconf.programStackSizeBytes < height k + under 2 height js) ∨
    (e = .throws .stackUnderflow ∧ current m = .ret ∧ Stacked m [])

namespace InFrames
variable {base data : Nat} {image : List MemCell} {ds : List Decoded} {height : Nat → Nat} {entry k : Nat}
  {js : List Nat} {d : Decoded} {m : Machine}

/-- A turn at a `CALL`. -/
theorem call (h : InFrames base data image ds height entry m) (hc : StackTyped base data image ds height)
    (hgo : m.goesOn = true) (hstands : Stands base data ds height entry k js m) (hd : (k, d) ∈ listing data ds)
    {arg : RawArgument} (hcall : d.instruction = .call arg) (hcurrent : current m = .call arg)
    (hfetched : (fetched m).proc.pc.toNat = base + (k + (1 + encodedSize d.2))) :
    (∃ e, m.next = .error e ∧ e.InOrder base data ds height entry m) ∨
      ∃ m', m.next = .ok m' ∧ InFrames base data image ds height entry m' := by
  have hsorted := hc.sorts _ hd
  rw [hcall] at hsorted
  obtain ⟨⟨htype, hle, hstart, hzero⟩, hnext⟩ := hsorted
  have hnext : height (k + (1 + encodedSize d.2)) = height k := hnext
  obtain ⟨s, hs, hf⟩ := hstands.stack
  have hrun := hstands.run.tail (.call ⟨d, arg, hd, hcall, (Nat.add_sub_cancel' hle).symm, rfl⟩)
  have hlength := hf.length
  have hstep := call_step hs hgo hcurrent htype
  by_cases hroom : 2 + s.length ≤ VMconf.programStackSizeBytes
  · rw [CarriesOut, Lifo.apply, if_pos (show [_, _].length + s.length ≤ _ from hroom)] at hstep
    obtain ⟨m', hm', hs', heffect⟩ := hstep
    rw [hcurrent] at heffect
    obtain ⟨hpc, -, hram⟩ := heffect
    have hsector : m'.proc.firstSector.toNat = base := by
      rw [(Machine.keeps_next hm').layout.firstSector, h.sector]
    have hplace : m'.proc.pc.toNat = base + (arg.value.toNat - base) := by
      rw [hpc]
      omega
    refine .inr ⟨m', hm', ⟨⟨h.toGuarded.onStack hc.inside hm' hs hs' hram, ?_⟩, hsector, fun _ => ?_⟩⟩
    · exact ⟨_, hstart, by rw [hplace, hsector]⟩
    · refine ⟨_, _, hplace, hrun, _, hs', [], _, _, s, rfl, hzero.symm, ?_, hf.keep hnext⟩
      rw [word_bytes _ (UInt16.toNat_lt _), hfetched]
  · rw [CarriesOut, Lifo.apply, if_neg (show ¬ [_, _].length + s.length ≤ _ from hroom)] at hstep
    refine .inl ⟨_, hstep, .inr (.inl ⟨rfl, _, _, hrun, ?_⟩)⟩
    simp only [under, hzero, hnext]
    omega

/-- A turn at a `RET`. -/
theorem ret (h : InFrames base data image ds height entry m) (hc : StackTyped base data image ds height)
    (hgo : m.goesOn = true) (hstands : Stands base data ds height entry k js m) (hd : (k, d) ∈ listing data ds)
    (hret : d.instruction = .ret) (hcurrent : current m = .ret) :
    (∃ e, m.next = .error e ∧ e.InOrder base data ds height entry m) ∨
      ∃ m', m.next = .ok m' ∧ InFrames base data image ds height entry m' := by
  have hzero := hc.sorts _ hd
  rw [hret] at hzero
  obtain ⟨s, hs, hf⟩ := hstands.stack
  have hstep := ret_step hs hgo hcurrent
  cases js with
  | nil =>
    obtain rfl : s = [] := List.eq_nil_of_length_eq_zero (Eq.trans hf hzero)
    exact .inl ⟨_, hstep, .inr (.inr ⟨rfl, hcurrent, hs⟩)⟩
  | cons j js =>
    obtain ⟨high, low, caller, rfl, hreturn, hcaller⟩ := hf.leave hzero
    obtain ⟨m', hm', hs', heffect⟩ := hstep
    rw [hcurrent] at heffect
    obtain ⟨⟨high', low', hhigh, hlow, hpc⟩, -, hram⟩ := heffect
    cases hhigh
    cases hlow
    have hsector : m'.proc.firstSector.toNat = base := by
      rw [(Machine.keeps_next hm').layout.firstSector, h.sector]
    have hplace : m'.proc.pc.toNat = base + j := by rw [hpc, hreturn]
    have hrun := hstands.run.tail (.ret ⟨d, hd, hret⟩)
    refine .inr ⟨m', hm', ⟨⟨?_, j, ?_, by rw [hplace, hsector]⟩, hsector,
      fun _ => ⟨j, js, hplace, hrun, _, hs', hcaller⟩⟩⟩
    · exact h.toGuarded.onStack hc.inside hm' hs hs' fun i _ => congrFun hram i
    · exact (behind_call hstands.run j (List.mem_cons_self ..)).1

/-- What a turn is: it ends the run in order, or it is a step of the flow. -/
theorem turn (h : InFrames base data image ds height entry m) (hc : StackTyped base data image ds height) :
    (∃ e, m.next = .error e ∧ e.InOrder base data ds height entry m) ∨
      m.goesOn = true ∧ Confined m ∧ ∃ m', m.next = .ok m' ∧ InFrames base data image ds height entry m' := by
  by_cases hgo : m.goesOn = true
  · obtain ⟨k, d, hd, hpc, hcurrent, hnext, hfetched⟩ := h.found hc.toSectioned hgo
    obtain ⟨k', js, hstands⟩ := h.stands (Machine.goesOn_pc hgo).1
    have hk : k' = k := by
      have := hstands.pc
      have := h.sector
      omega
    subst hk
    have hsorted := hc.sorts _ hd
    have hbase : m.proc.firstSector.toNat ≤ m.proc.pc.toNat := by omega
    rcases hsorted.cases with hw | ⟨arg, hcall⟩ | hret
    · rw [← hcurrent] at hsorted hw
      obtain ⟨s, hs, hf⟩ := hstands.stack
      rcases h.performs hc.toSectioned hgo hw with ⟨e, he, hfault⟩ | ⟨hconfined, m', hm', hlands⟩
      · refine .inl ⟨_, he, hfault.imp_right (Or.imp ?_ ?_)⟩
        · rintro ⟨rfl, arg, hpush, hfull⟩
          rw [hpush] at hsorted
          have hcontinues : Continues (k' + (1 + encodedSize d.2)) (k' + (1 + encodedSize d.2)) d.instruction := by
            rw [← hcurrent, hpush]
            rfl
          have := hfull s (stacked_fetched hs)
          have := hf.length
          have : height (k' + (1 + encodedSize d.2)) = height k' + stackWidth arg.type := hsorted.2
          exact ⟨rfl, _, js, hstands.run.tail (.go ⟨d, hd, hcontinues⟩), by omega⟩
        · rintro ⟨-, arg, hpop, hshort⟩
          rw [hpop] at hsorted
          have := hshort s (stacked_fetched hs)
          have := (hf.pop hsorted.2).1
          omega
      · have hsector := ((fetched_layout m).trans hlands.layout).firstSector
        refine .inr ⟨hgo, hconfined, m', hm', .landed hnext hfetched hlands, hsector ▸ h.sector, fun hrunning => ?_⟩
        obtain ⟨s', hs', hmove⟩ := hlands.stack s (stacked_fetched hs)
        obtain ⟨k', hk', hcontinues, hf'⟩ := hsorted.frames hw hmove hlands.goes hrunning hfetched hf
        rw [hcurrent] at hcontinues
        exact ⟨k', js, hk'.trans (by rw [← h.sector]; rfl), hstands.run.tail (.go ⟨d, hd, hcontinues⟩), s', hs', hf'⟩
    · rw [hcall] at hcurrent
      rcases h.call hc hgo hstands hd hcall hcurrent (by rw [hfetched, h.sector]) with hend | ⟨m', hm', hin⟩
      · exact .inl hend
      · exact .inr ⟨hgo, ⟨hbase, by rw [hcurrent]; exact h.stackIn⟩, m', hm', hin⟩
    · rw [hret] at hcurrent
      rcases h.ret hc hgo hstands hd hret hcurrent with hend | ⟨m', hm', hin⟩
      · exact .inl hend
      · exact .inr ⟨hgo, ⟨hbase, by rw [hcurrent]; exact h.stackIn⟩, m', hm', hin⟩
  · have hstop : m.next = .error (if m.proc.running then .unhalted else .halted) := if_neg hgo
    refine .inl ⟨_, hstop, ?_⟩
    split <;> trivial

/-- It stays in the flow, and touches nothing of others. -/
theorem run {m' : Machine} (h : InFrames base data image ds height entry m)
    (hc : StackTyped base data image ds height) (hclean : Clean m) (hrun : Machine.system.Reaches m m') :
    InFrames base data image ds height entry m' ∧ Clean m' := by
  refine hrun.invariant (I := fun m => InFrames base data image ds height entry m ∧ Clean m)
    (fun m₁ m₂ hm₁ hnext => ?_) ⟨h, hclean⟩
  have hnext : m₁.next = .ok m₂ := hnext
  rcases hm₁.1.turn hc with ⟨e, he, -⟩ | ⟨hgo, hconfined, m', hm', hin⟩
  · rw [he] at hnext
    cases hnext
  · rw [hm'] at hnext
    cases hnext
    exact ⟨hin, ((stays_step hm₁.1.loaded hgo hconfined).ok (Machine.next_ok hm').2).clean hm₁.2⟩

theorem ends_well (h : InFrames base data image ds height entry m) (hc : StackTyped base data image ds height) :
    (∃ m', m.next = .ok m') ∨ ∃ e, m.next = .error e ∧ e.InOrder base data ds height entry m := by
  rcases h.turn hc with ⟨e, he, horder⟩ | ⟨-, -, m', hm', -⟩
  · exact .inr ⟨e, he, horder⟩
  · exact .inl ⟨m', hm'⟩

end InFrames

/-! ### Programs -/

section Programs
variable {vm vm' : VM} {procs : List Process} {p : Process} {data : Nat} {image : List MemCell}
  {ds : List Decoded} {height : Nat → Nat}

/-- A stack typed image starts where the flow does. -/
theorem inFrames_boot (hs : Session vm procs) (hload : vm.load image = .ok (p, vm'))
    (hc : StackTyped p.firstSector.toNat data image ds height) (cin : Stdin) {handle : Window}
    (hhandle : handle ≠ .uninitialised) (events : List WindowEvent) :
    InFrames p.firstSector.toNat data image ds height (entryOf image) (.boot vm' p cin handle events) := by
  refine ⟨onTrack_boot hs hload hc.toSectioned cin hhandle events, rfl, fun _ => ⟨entryOf image, [], ?_, .refl, [],
    stacked_load hs hload cin handle events, hc.outermost.symm⟩⟩
  obtain ⟨high, low, rest, rfl, -, hpc⟩ := hc.entered hs hload
  exact hpc

/-- **Subroutines return where they were called.** In every session, with every input and in
either mode: after every number of turns of a stack typed program PC is where a run of its
flow has come to, and the stack holds the addresses its callers go on at, each above as many
bytes as that caller has pushed (`Framed` counts them, it does not say which); the code is as
it was loaded, and nothing but the own segment and the GUI flag was touched; and the next
turn completes unless the program ends, divides by zero, needs more than its stack, or
returns from no call. -/
theorem subroutines_safe (hs : Session vm procs) (hload : vm.load image = .ok (p, vm'))
    (hc : StackTyped p.firstSector.toNat data image ds height) (cin : Stdin) {handle : Window}
    (hhandle : handle ≠ .uninitialised) (events : List WindowEvent) {m : Machine}
    (hrun : Machine.system.Reaches (.boot vm' p cin handle events) m) :
    InFrames p.firstSector.toNat data image ds height (entryOf image) m ∧ Clean m ∧
      ((∃ m', m.next = .ok m') ∨
        ∃ e, m.next = .error e ∧ e.InOrder p.firstSector.toNat data ds height (entryOf image) m) := by
  have hstart := inFrames_boot hs hload hc cin hhandle events
  obtain ⟨hin, hclean⟩ := hstart.run hc (fun a ha => by cases ha) hrun
  exact ⟨hin, hclean, hin.ends_well hc⟩

/-- `CALL` of a subroutine that pushes 7, pops it into A and returns, and `HALT`. -/
def callSeven : List MemCell :=
  [1, 0] ++ (List.replicate 254 0 ++ [0xB1, 2, 1, 5, 0xFF, 0x81, 0, 7, 0x91, 1, 1, 0x20])

def callSevenCode : List Decoded :=
  [(0xB1, [⟨.address, 261⟩]), (0xFF, []), (0x81, [⟨.number, 7⟩]), (0x91, [⟨.register, 1⟩]), (0x20, [])]

def callSevenHeight (k : Nat) : Nat := if k = 264 then 1 else 0

theorem callSeven_loads : VM.fresh.load callSeven = .ok (freshProcess callSeven, freshVM callSeven) :=
  load_fresh (by decide +kernel)

theorem callSeven_typed : StackTyped 0 256 callSeven callSevenCode callSevenHeight where
  registers := Nat.le_refl 256
  inside := by decide +kernel
  code := by
    rw [show callSeven.drop 256 = [0xB1, 2, 1, 5, 0xFF, 0x81, 0, 7, 0x91, 1, 1, 0x20] by decide +kernel]
    exact .cons rfl (.cons rfl (.cons rfl (.cons rfl (.single rfl))))
  entry := ⟨1, 0, _, rfl, by decide⟩
  outermost := rfl
  sorts := by decide

def callSevenMachine : Machine := .boot (freshVM callSeven) (freshProcess callSeven) ⟨[], false⟩ .null []

/-- Two turns lead into the subroutine, with the address and the 7 pushed. -/
theorem callSeven_pushed : ∃ m, Machine.system.Reaches callSevenMachine m ∧ m.proc.pc = 264 ∧
    m.proc.top = m.proc.sp.toNat + 3 :=
  ⟨_, Machine.reaches_nextOr (Machine.reaches_nextOr (.refl _) (by decide +kernel)) (by decide +kernel),
    by decide +kernel, by decide +kernel⟩

theorem subroutines_safe_seven : (∃ m, Machine.system.Reaches callSevenMachine m ∧ m.proc.pc = 264) ∧
    ∀ m, Machine.system.Reaches callSevenMachine m →
      InFrames 0 256 callSeven callSevenCode callSevenHeight (entryOf callSeven) m ∧ Clean m ∧
        ((∃ m', m.next = .ok m') ∨
          ∃ e, m.next = .error e ∧ e.InOrder 0 256 callSevenCode callSevenHeight (entryOf callSeven) m) :=
  ⟨callSeven_pushed.imp fun _ h => ⟨h.1, h.2.1⟩, fun _ hrun =>
    subroutines_safe .fresh callSeven_loads callSeven_typed ⟨[], false⟩ (by decide) [] hrun⟩

/-- **A stack that has room for the flow's bound never overflows**: in no run does the program
have more on it than the bound says. -/
theorem stack_suffices (hs : Session vm procs) (hload : vm.load image = .ok (p, vm'))
    (hc : StackTyped p.firstSector.toNat data image ds height) {bound : Nat → Nat}
    (hbound : Bounded (flow p.firstSector.toNat data ds) 2 height bound)
    (hfits : bound (entryOf image) ≤ VMconf.programStackSizeBytes) (cin : Stdin) {handle : Window}
    (hhandle : handle ≠ .uninitialised) (events : List WindowEvent) {m : Machine}
    (hrun : Machine.system.Reaches (.boot vm' p cin handle events) m) :
    (m.proc.running = true → m.proc.top ≤ m.proc.sp.toNat + bound (entryOf image)) ∧
      m.next ≠ .error (.stopped (.throws .stackOverflow)) := by
  have hstart := inFrames_boot hs hload hc cin hhandle events
  obtain ⟨hin, -⟩ := hstart.run hc (fun a ha => by cases ha) hrun
  refine ⟨fun hrunning => ?_, fun he => ?_⟩
  · obtain ⟨k, js, -, hreach, s, hstack, hf⟩ := hin.stands hrunning
    have hheight := hstack.height
    have hlength := hf.length
    have := hbound.fits hreach
    omega
  · rcases hin.ends_well hc with ⟨m', hm'⟩ | ⟨e, he', horder⟩
    · cases hm'.symm.trans he
    · cases he'.symm.trans he
      rcases horder with heq | ⟨-, k, js, hreach, hover⟩ | ⟨heq, -⟩
      · cases heq
      · have := hbound.fits hreach
        omega
      · cases heq

/-- Two bytes for the address, and the 7: the bound is reached. -/
theorem stack_suffices_seven :
    (∃ m, Machine.system.Reaches callSevenMachine m ∧ m.proc.top = m.proc.sp.toNat + 3) ∧
      ∀ m, Machine.system.Reaches callSevenMachine m →
        (m.proc.running = true → m.proc.top ≤ m.proc.sp.toNat + 3) ∧
          m.next ≠ .error (.stopped (.throws .stackOverflow)) := by
  have hlisted : ∀ {k d}, (k, d) ∈ listing 256 callSevenCode → (k = 256 ∧ d = (0xB1, [⟨.address, 261⟩])) ∨
      (k = 260 ∧ d = (0xFF, [])) ∨ (k = 261 ∧ d = (0x81, [⟨.number, 7⟩])) ∨
      (k = 264 ∧ d = (0x91, [⟨.register, 1⟩])) ∨ (k = 267 ∧ d = (0x20, [])) := by
    intro k d hd
    simpa [listing, callSevenCode, encodedSize, ArgType.payload] using hd
  have hbound : Bounded (flow 0 256 callSevenCode) 2 callSevenHeight fun k => if k < 261 then 3 else 1 := by
    refine ⟨fun k => ?_, ?_, ?_⟩
    · unfold callSevenHeight
      split <;> split <;> omega
    · rintro k k' ⟨d, hd, hgoes⟩
      rcases hlisted hd with ⟨rfl, rfl⟩ | ⟨rfl, rfl⟩ | ⟨rfl, rfl⟩ | ⟨rfl, rfl⟩ | ⟨rfl, rfl⟩ <;> cases hgoes <;> decide
    · rintro k t j ⟨d, arg, hd, hcall, htarget, rfl⟩
      rcases hlisted hd with ⟨rfl, rfl⟩ | ⟨rfl, rfl⟩ | ⟨rfl, rfl⟩ | ⟨rfl, rfl⟩ | ⟨rfl, rfl⟩ <;> cases hcall
      obtain rfl : 261 = t := htarget.trans (Nat.zero_add t)
      decide
  exact ⟨callSeven_pushed.imp fun _ h => ⟨h.1, h.2.2⟩, fun _ hrun =>
    stack_suffices .fresh callSeven_loads callSeven_typed hbound (by decide) ⟨[], false⟩ (by decide) [] hrun⟩

end Programs

end CustomIsaVm
