import Mathlib.Data.List.Chain
import CustomIsaVm.Machine.Allocator

/-! What `check_integrity` sees.

`free` trusts its caller: nothing in it looks whether the range it is given was in use.
A range that was partly free already is put into the list all the same, next to the
block it overlaps. `check_integrity` compares neighbours only, and that is enough: right
after a release it fails exactly when the range held a free byte. So along any sequence
of calls it stays true as long as every release is honest, and turns false with the
first that is not (`integrity_exact`). -/
namespace CustomIsaVm

/-! ### Ranges put back anywhere -/

namespace Ranges

/-- Each range starts where the one before it has ended, or later. -/
def Ordered (rs : List Range) : Prop := rs.IsChain fun r s => r.2 ≤ s.1

theorem ordered_of_canonical {rs : List Range} (h : Canonical rs) : Ordered rs :=
  (h.gaps.imp Nat.le_of_lt).isChain

/-- What follows `s` is clear of it, if the first range is. -/
theorem clear_of_joinRight {s : Range} {rs : List Range} (hrs : Canonical rs)
    (h : Ordered (joinRight s rs)) : ∀ r ∈ rs, s.2 ≤ r.1 := by
  cases rs with
  | nil => simp
  | cons r rs =>
    obtain ⟨hr, -, hgap⟩ := canonical_cons.mp hrs
    have hfirst : s.2 ≤ r.1 := by
      by_cases htouch : r.1 = s.2
      · exact htouch.ge
      · rw [joinRight_apart rs htouch] at h
        exact (List.isChain_cons_cons.mp h).1
    intro t ht
    rcases List.mem_cons.mp ht with rfl | ht
    · exact hfirst
    · have := hgap t ht
      omega

/-- The start of what `joinRight` makes. -/
theorem joinRight_head (s : Range) (rs : List Range) : ∃ e rest, joinRight s rs = (s.1, e) :: rest := by
  cases rs with
  | nil => exact ⟨s.2, [], rfl⟩
  | cons r rs =>
    by_cases htouch : r.1 = s.2
    · exact ⟨r.2, rs, joinRight_touching rs htouch⟩
    · exact ⟨s.2, r :: rs, joinRight_apart rs htouch⟩

/-- **A range put back leaves the list in order exactly where it overlaps nothing.** -/
theorem ordered_joinLeft {s : Range} {xs ys : List Range} (hs : s.1 < s.2) (h : Canonical (xs ++ ys))
    (hbelow : ∀ x ∈ xs, x.1 < s.1) (habove : ∀ y ∈ ys, s.1 ≤ y.1) :
    Ordered (joinLeft s xs ys) ↔ ∀ i, s.1 ≤ i → i < s.2 → ¬ Covers (xs ++ ys) i := by
  constructor
  · intro hord
    have hclear : (∀ x ∈ xs, x.2 ≤ s.1) ∧ ∀ y ∈ ys, s.2 ≤ y.1 := by
      obtain ⟨hxs, hys, -⟩ := canonical_append.mp h
      rcases List.eq_nil_or_concat xs with rfl | ⟨front, r, rfl⟩
      · exact ⟨by simp, clear_of_joinRight hys hord⟩
      · rw [List.concat_eq_append] at hxs hord ⊢
        have hgap := (canonical_append.mp hxs).2.2
        have hr := hxs.nonempty r (by simp)
        -- the last of `xs` ends by `s.1`, and the others end before it starts
        have hfront : r.2 ≤ s.1 → ∀ x ∈ front ++ [r], x.2 ≤ s.1 := by
          intro hend x hx
          rcases List.mem_append.mp hx with hx | hx
          · have := hgap x hx r (List.mem_singleton_self r)
            omega
          · rw [List.mem_singleton.mp hx]
            exact hend
        rw [joinLeft_concat] at hord
        by_cases htouch : r.2 = s.1
        · rw [if_pos htouch] at hord
          have hright : Ordered (joinRight (r.1, s.2) ys) := (List.isChain_append.mp hord).2.1
          exact ⟨hfront htouch.le, clear_of_joinRight (s := (r.1, s.2)) hys hright⟩
        · rw [if_neg htouch, List.append_assoc] at hord
          have hfrom : Ordered (r :: joinRight s ys) := (List.isChain_append.mp hord).2.1
          obtain ⟨e, rest, hhead⟩ := joinRight_head s ys
          have hright : Ordered (joinRight s ys) := hfrom.tail
          rw [hhead] at hfrom
          exact ⟨hfront (List.isChain_cons_cons.mp hfrom).1, clear_of_joinRight hys hright⟩
    rintro i hi hlt ⟨r, hr, hri, hir⟩
    rcases List.mem_append.mp hr with hr | hr
    · have := hclear.1 r hr
      omega
    · have := hclear.2 r hr
      omega
  · intro hbare
    exact ordered_of_canonical (canonical_joinLeft ⟨hs, h, hbelow, habove, hbare⟩)

end Ranges

namespace MemoryManager
open Ranges

/-! ### One release -/

/-- `check_integrity` compares neighbours. -/
theorem checkIntegrity_iff (l : List MemoryBlock) : checkIntegrity l = true ↔ Ordered (rangesOf l) := by
  induction l with
  | nil => exact iff_of_true rfl List.isChain_nil
  | cons prev l ih =>
    cases l with
    | nil => exact iff_of_true rfl (List.isChain_singleton _)
    | cons it rest =>
      rw [checkIntegrity, rangesOf_cons, rangesOf_cons, Ordered, List.isChain_cons_cons, range_snd, range_fst]
      by_cases hover : it.startAddress.toNat < prev.startAddress.toNat + prev.size
      · rw [if_pos hover]
        refine iff_of_false (by split <;> simp) fun h => ?_
        omega
      · rw [if_neg hover, if_neg (by rw [UInt16.lt_iff_toNat_lt]; omega), ih]
        exact ⟨fun h => ⟨by omega, h⟩, fun h => h.2⟩

/-- No byte of the range is in a free block. -/
def Clear (l : List MemoryBlock) (startAddr : MemAddr) (size : Nat) : Prop :=
  ∀ b ∈ l, ∀ i, startAddr.toNat ≤ i → i < startAddr.toNat + size → ¬ MemoryBlock.Holds b i

theorem clear_iff {l : List MemoryBlock} {a : MemAddr} {size : Nat} : Clear l a size ↔
    ∀ i, a.toNat ≤ i → i < a.toNat + size → ¬ Covers (rangesOf l) i := by
  constructor
  · rintro h i hi hlt ⟨r, hr, hri⟩
    obtain ⟨b, hb, rfl⟩ := List.mem_map.mp hr
    exact h b hb i hi hlt hri
  · intro h b hb i hi hlt hbi
    exact h i hi hlt ⟨b.range, List.mem_map_of_mem hb, hbi⟩

/-- Blocks that start below an address come before the others. -/
theorem Free.split {l : List MemoryBlock} {used : Nat → Prop} (h : Free l used) (a : MemAddr) :
    (∀ x ∈ rangesOf (l.takeWhile fun b => b.startAddress < a), x.1 < a.toNat) ∧
      ∀ y ∈ rangesOf (l.dropWhile fun b => b.startAddress < a), a.toNat ≤ y.1 := by
  refine ⟨fun r hr => ?_, fun r hr => h.canonical.above a.toNat r ?_⟩
  · obtain ⟨b, hb, rfl⟩ := List.mem_map.mp hr
    have hlt := List.mem_takeWhile_imp hb
    simpa [UInt16.lt_iff_toNat_lt, range_fst] using hlt
  · have hsame : (rangesOf l).dropWhile (fun r => decide (r.1 < a.toNat)) =
        rangesOf (l.dropWhile fun b => b.startAddress < a) := by
      rw [rangesOf, List.dropWhile_map]
      simp only [Function.comp_def, range_fst, ← UInt16.lt_iff_toNat_lt]
      rfl
    rw [hsame]
    exact hr

/-- After a release the list is in order exactly when the range held no free byte. -/
theorem Free.checkIntegrity_free {l : List MemoryBlock} {used : Nat → Prop} (h : Free l used) (a : MemAddr)
    {size : Nat} (hpos : 1 ≤ size) : checkIntegrity (MemoryManager.free a size l) = true ↔ Clear l a size := by
  have hsplit : rangesOf (l.takeWhile fun b => b.startAddress < a) ++
      rangesOf (l.dropWhile fun b => b.startAddress < a) = rangesOf l := by
    rw [← rangesOf_append, List.takeWhile_append_dropWhile]
  obtain ⟨hbelow, habove⟩ := h.split a
  rw [checkIntegrity_iff, free_joins, ordered_joinLeft (by simp only; omega) (by rw [hsplit]; exact h.canonical)
    hbelow habove, hsplit, clear_iff]

/-! ### Sequences of calls -/

/-- A call to the allocator. -/
inductive Call where
  | allocate (bytes : Nat)
  | free (startAddr : MemAddr) (size : Nat)
  deriving DecidableEq, Repr

/-- The free list a call leaves. An allocation that throws leaves it as it was. -/
def Call.run (l : List MemoryBlock) : Call → List MemoryBlock
  | allocate bytes => ((MemoryManager.allocate bytes l).map Prod.snd).getD l
  | free startAddr size => MemoryManager.free startAddr size l

/-- The free list after a sequence of calls. -/
def afterCalls (calls : List Call) (l : List MemoryBlock) : List MemoryBlock := calls.foldl Call.run l

/-- A call about at least one byte, that gives back nothing above the allocator's part of RAM. -/
def Call.InBounds : Call → Prop
  | allocate bytes => 1 ≤ bytes
  | free startAddr size => 1 ≤ size ∧ startAddr.toNat + size ≤ ramSize - VMconf.framebufferTotSize - 1

/-- A release is honest when none of its bytes is free. -/
def Call.Honest (l : List MemoryBlock) : Call → Prop
  | allocate _ => True
  | free startAddr size => Clear l startAddr size

theorem History.intact {l : List MemoryBlock} {used : Nat → Prop} (h : History l used) :
    checkIntegrity l = true :=
  checkIntegrity_of_gaps h.free_list.partition.gaps

/-- The step: an honest call leads on along a history, and any other is noticed. -/
theorem History.call {l : List MemoryBlock} {used : Nat → Prop} (h : History l used) {c : Call}
    (hc : c.InBounds) : (c.Honest l → ∃ used', History (c.run l) used') ∧
      (checkIntegrity (c.run l) = true ↔ c.Honest l) := by
  cases c with
  | allocate bytes =>
    have hon : ∃ used', History (Call.run l (.allocate bytes)) used' := by
      cases ha : MemoryManager.allocate bytes l with
      | none => exact ⟨used, by simpa [Call.run, ha] using h⟩
      | some found =>
        obtain ⟨a, l'⟩ := found
        exact ⟨_, by simpa [Call.run, ha] using h.allocate hc ha⟩
    obtain ⟨used', hon⟩ := hon
    exact ⟨fun _ => ⟨used', hon⟩, iff_of_true hon.intact trivial⟩
  | free a size =>
    obtain ⟨hpos, hend⟩ := hc
    refine ⟨fun hclear => ⟨_, .free a h hpos fun i hi hlt => ?_⟩, h.free_list.checkIntegrity_free a hpos⟩
    -- a byte of the arena that is not free is in use
    by_contra hunused
    refine clear_iff.mp hclear i hi hlt ((h.free_list.covers i).mpr ⟨?_, hunused⟩)
    exact Nat.lt_of_lt_of_le hlt hend

/-- `check_integrity` after every call, from any reachable list. -/
theorem History.integrity {l : List MemoryBlock} {used : Nat → Prop} (h : History l used) {calls : List Call}
    (hcalls : ∀ c ∈ calls, c.InBounds) :
    (∀ done, done <+: calls → checkIntegrity (afterCalls done l) = true) ↔
      ∀ done c, done ++ [c] <+: calls → c.Honest (afterCalls done l) := by
  induction calls generalizing l used with
  | nil =>
    refine iff_of_true (fun done hdone => ?_) fun done c hc => ?_
    · rw [List.prefix_nil.mp hdone]
      exact h.intact
    · exact absurd (List.prefix_nil.mp hc) (by simp)
  | cons c calls ih =>
    obtain ⟨hon, hsees⟩ := h.call (hcalls c (List.mem_cons_self ..))
    have hrest : ∀ d ∈ calls, d.InBounds := fun d hd => hcalls d (List.mem_cons_of_mem c hd)
    constructor
    · intro hall
      have hhonest : c.Honest l := hsees.mp (hall [c] (List.prefix_append [c] calls))
      obtain ⟨used', h'⟩ := hon hhonest
      intro done d hd
      cases done with
      | nil =>
        rw [List.nil_append, List.cons_prefix_cons] at hd
        rw [hd.1]
        exact hhonest
      | cons e done =>
        rw [List.cons_append, List.cons_prefix_cons] at hd
        obtain ⟨rfl, hd⟩ := hd
        refine (ih h' hrest).mp (fun part hpart => ?_) done d hd
        exact hall (e :: part) (List.cons_prefix_cons.mpr ⟨rfl, hpart⟩)
    · intro hall done hdone
      cases done with
      | nil => exact h.intact
      | cons e done =>
        obtain ⟨rfl, hpart⟩ := List.cons_prefix_cons.mp hdone
        have hhonest : e.Honest l := hall [] e (List.prefix_append [e] calls)
        obtain ⟨used', h'⟩ := hon hhonest
        refine (ih h' hrest).mpr (fun part d hd => ?_) done hpart
        exact hall (e :: part) d (List.cons_prefix_cons.mpr ⟨rfl, hd⟩)

/-- **`check_integrity` detects every dishonest release.** Along any sequence of calls
from the constructor's list it is true after each of them exactly when no release gave
back a byte that was free at that moment. -/
theorem integrity_exact (calls : List Call) (hcalls : ∀ c ∈ calls, c.InBounds) :
    (∀ done, done <+: calls → checkIntegrity (afterCalls done whole) = true) ↔
      ∀ done c, done ++ [c] <+: calls → c.Honest (afterCalls done whole) :=
  History.fresh.integrity hcalls

/-- Ten bytes are taken and given back twice: the second release is seen. -/
theorem integrity_exact_twice : ¬ ∀ done,
    done <+: [Call.allocate 20, .free 0 10, .free 0 10] → checkIntegrity (afterCalls done whole) = true := by
  have hbounds : ∀ c ∈ [Call.allocate 20, .free 0 10, .free 0 10], c.InBounds := by
    simp [Call.InBounds, ramSize, VMconf.framebufferTotSize, VMconf.framebufferXSize, VMconf.framebufferYSize]
  intro hall
  have hhonest := (integrity_exact _ hbounds).mp hall [.allocate 20, .free 0 10] (.free 0 10) (List.prefix_refl _)
  exact hhonest ⟨0, 10⟩ (by decide) 0 (by decide) (by decide) ⟨by decide, by decide⟩

end MemoryManager
end CustomIsaVm
