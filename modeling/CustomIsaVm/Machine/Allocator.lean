import CustomIsaVm.Lib.Ranges
import CustomIsaVm.Machine.Loader

/-! The allocator over any history.

`MemoryManager.free` gives a segment back: the list is searched for the place where
it belongs, and it is joined to the blocks it touches. A `History` is any sequence
of allocations and releases; next to the free list it keeps the set of the bytes in
use. The free list is at all times the canonical list of ranges of the other bytes
(`free_list_partition`). Such a list is determined by the bytes in use: releases undo
allocations and commute (`free_exact`), and the first block that is large enough is
where the lowest run of free bytes starts (`allocate_complete`). -/
namespace CustomIsaVm
namespace MemoryManager
open Ranges

/-! ### The rest of the class -/

/-- The free list as the constructor and `reset` make it. -/
def whole : List MemoryBlock := [⟨0, ramSize - VMconf.framebufferTotSize - 1⟩]

/-- The block goes in front of `it`, or becomes part of it. -/
def putBefore (startAddr : MemAddr) (size : Nat) : List MemoryBlock → List MemoryBlock
  | [] => [⟨startAddr, size⟩]
  | it :: rest =>
    if it.startAddress.toNat = startAddr.toNat + size then ⟨startAddr, it.size + size⟩ :: rest
    else ⟨startAddr, size⟩ :: it :: rest

/-- `MemoryManager::free`. -/
def free (startAddr : MemAddr) (size : Nat) (freeList : List MemoryBlock) : List MemoryBlock :=
  let passed := freeList.takeWhile fun b => b.startAddress < startAddr
  let it := freeList.dropWhile fun b => b.startAddress < startAddr
  match passed.getLast? with
  | some prev =>
    if prev.startAddress.toNat + prev.size = startAddr.toNat then
      let prev := {prev with size := prev.size + size}
      match it with
      | next :: rest =>
        if next.startAddress.toNat = prev.startAddress.toNat + prev.size then
          passed.dropLast ++ {prev with size := prev.size + next.size} :: rest
        else passed.dropLast ++ prev :: next :: rest
      | [] => passed.dropLast ++ [prev]
    else passed ++ putBefore startAddr size it
  | none => putBefore startAddr size it

/-- `MemoryManager::check_integrity`. -/
def checkIntegrity : List MemoryBlock → Bool
  | prev :: it :: rest =>
    if it.startAddress < prev.startAddress then false
    else if it.startAddress.toNat < prev.startAddress.toNat + prev.size then false
    else checkIntegrity (it :: rest)
  | _ => true

/-- What can happen to an allocator, and the bytes in use after it. An allocation that
throws changes nothing. -/
inductive History : List MemoryBlock → (Nat → Prop) → Prop
  | fresh : History whole fun _ => False
  | reset {l : List MemoryBlock} {used : Nat → Prop} (h : History l used) : History whole fun _ => False
  | allocate {l l' : List MemoryBlock} {used : Nat → Prop} {bytes : Nat} {a : MemAddr} (h : History l used)
      (hpos : 1 ≤ bytes) (ha : MemoryManager.allocate bytes l = some (a, l')) :
      History l' fun i => used i ∨ (a.toNat ≤ i ∧ i < a.toNat + bytes)
  | free {l : List MemoryBlock} {used : Nat → Prop} (a : MemAddr) {bytes : Nat} (h : History l used)
      (hpos : 1 ≤ bytes) (hused : ∀ i, a.toNat ≤ i → i < a.toNat + bytes → used i) :
      History (MemoryManager.free a bytes l) fun i => used i ∧ ¬ (a.toNat ≤ i ∧ i < a.toNat + bytes)

/-! ### Blocks as ranges -/

def rangesOf (l : List MemoryBlock) : List Range := l.map MemoryBlock.range

@[simp] theorem rangesOf_append (l l' : List MemoryBlock) :
    rangesOf (l ++ l') = rangesOf l ++ rangesOf l' := List.map_append

@[simp] theorem rangesOf_cons (b : MemoryBlock) (l : List MemoryBlock) :
    rangesOf (b :: l) = b.range :: rangesOf l := rfl

theorem range_fst (b : MemoryBlock) : b.range.1 = b.startAddress.toNat := rfl

theorem range_snd (b : MemoryBlock) : b.range.2 = b.startAddress.toNat + b.size := rfl

/-- An allocation carves a range. -/
theorem allocate_carves {bytes : Nat} {l l' : List MemoryBlock} {a : MemAddr}
    (h : allocate bytes l = some (a, l')) (hbound : ∀ b ∈ l, b.range.2 ≤ guiFlag) :
    ∃ before b after, l = before ++ b :: after ∧ bytes ≤ b.size ∧ a = b.startAddress ∧
      rangesOf l' = rangesOf before ++ (carve bytes b.range ++ rangesOf after) := by
  obtain ⟨before, b, after, rfl, hle, ha, rfl⟩ := allocate_some h
  refine ⟨before, b, after, rfl, hle, ha, ?_⟩
  have hend := hbound b (by simp)
  have hflag : guiFlag = 59903 := rfl
  rw [rangesOf_append, rangesOf_append]
  congr 2
  rw [range_snd] at hend
  unfold carve
  by_cases hall : b.size - bytes = 0
  · rw [if_pos hall, if_pos (by rw [range_fst, range_snd]; omega)]
    rfl
  · rw [if_neg hall, if_neg (by rw [range_fst, range_snd]; omega)]
    have hstart : (b.startAddress + UInt16.ofNat bytes).toNat = b.startAddress.toNat + bytes := by
      rw [UInt16.toNat_add, UInt16.toNat_ofNat']
      omega
    simp only [rangesOf, List.map_cons, List.map_nil, List.cons.injEq, and_true, MemoryBlock.range, hstart,
      Prod.mk.injEq, true_and]
    omega

theorem putBefore_joins (a : MemAddr) (size : Nat) (l : List MemoryBlock) :
    rangesOf (putBefore a size l) = joinRight (a.toNat, a.toNat + size) (rangesOf l) := by
  cases l with
  | nil => rfl
  | cons it rest =>
    rw [putBefore, rangesOf_cons]
    by_cases htouch : it.startAddress.toNat = a.toNat + size
    · rw [if_pos htouch, joinRight_touching _ htouch, rangesOf_cons]
      simp only [MemoryBlock.range, List.cons.injEq, Prod.mk.injEq, true_and, and_true]
      omega
    · rw [if_neg htouch, joinRight_apart _ htouch]
      rfl

/-- A release joins a range to those it lies between. -/
theorem free_joins (a : MemAddr) (size : Nat) (l : List MemoryBlock) :
    rangesOf (free a size l) = joinLeft (a.toNat, a.toNat + size)
      (rangesOf (l.takeWhile fun b => b.startAddress < a))
      (rangesOf (l.dropWhile fun b => b.startAddress < a)) := by
  unfold free
  generalize l.takeWhile (fun b => b.startAddress < a) = passed
  generalize l.dropWhile (fun b => b.startAddress < a) = it
  rcases List.eq_nil_or_concat passed with rfl | ⟨front, prev, rfl⟩
  · exact putBefore_joins a size it
  · have hlast : rangesOf (front ++ [prev]) = rangesOf front ++ [prev.range] := rangesOf_append front [prev]
    simp only [List.concat_eq_append, List.getLast?_append, List.getLast?_singleton, Option.some_or,
      List.dropLast_concat]
    rw [hlast, joinLeft_concat, range_snd]
    by_cases htouch : prev.startAddress.toNat + prev.size = a.toNat
    · rw [if_pos htouch, if_pos htouch]
      cases it with
      | nil =>
        rw [rangesOf_append]
        simp [rangesOf, MemoryBlock.range, joinRight]
        omega
      | cons next rest =>
        dsimp only
        have hnext : next.startAddress.toNat = prev.startAddress.toNat + (prev.size + size) ↔
            next.range.1 = a.toNat + size := by
          rw [range_fst]
          omega
        by_cases hjoin : next.range.1 = a.toNat + size
        · rw [if_pos (hnext.mpr hjoin), rangesOf_cons, joinRight_touching _ hjoin, rangesOf_append, rangesOf_cons]
          simp only [MemoryBlock.range, List.append_cancel_left_eq, List.cons.injEq, Prod.mk.injEq, true_and,
            and_true]
          rw [range_fst] at hjoin
          omega
        · rw [if_neg fun heq => hjoin (hnext.mp heq), rangesOf_cons, joinRight_apart _ hjoin, rangesOf_append,
            rangesOf_cons, rangesOf_cons]
          simp only [MemoryBlock.range, List.append_cancel_left_eq, List.cons.injEq, Prod.mk.injEq, true_and,
            and_true]
          omega
    · rw [if_neg htouch, if_neg htouch, rangesOf_append, hlast, putBefore_joins]

/-! ### The invariant -/

/-- The free list is the canonical list of the bytes below the GUI flag that are not
in use. -/
structure Free (l : List MemoryBlock) (used : Nat → Prop) : Prop where
  canonical : Canonical (rangesOf l)
  covers : ∀ i, Covers (rangesOf l) i ↔ i < guiFlag ∧ ¬ used i
  inside : ∀ i, used i → i < guiFlag

namespace Free
variable {l l' : List MemoryBlock} {used : Nat → Prop} {bytes : Nat} {a : MemAddr}

theorem bounded (h : Free l used) : ∀ b ∈ l, b.range.2 ≤ guiFlag := fun b hb =>
  h.canonical.bounded (fun i hi => ((h.covers i).mp hi).1) b.range (List.mem_map_of_mem hb)

theorem fresh : Free whole fun _ => False where
  canonical := canonical_cons.mpr ⟨by decide, .nil, by simp⟩
  covers i := by
    have hflag : ramSize - VMconf.framebufferTotSize - 1 = guiFlag := rfl
    simp [whole, rangesOf, MemoryBlock.range, hflag]
  inside i hi := hi.elim

/-- Nothing is handed out twice. -/
theorem allocate_bare (h : Free l used) (ha : MemoryManager.allocate bytes l = some (a, l')) (i : Nat)
    (hi : a.toNat ≤ i ∧ i < a.toNat + bytes) : i < guiFlag ∧ ¬ used i := by
  obtain ⟨before, b, after, rfl, hle, rfl, -⟩ := allocate_carves ha h.bounded
  rw [← h.covers]
  refine ⟨b.range, List.mem_map_of_mem (by simp), ?_⟩
  rw [range_fst, range_snd]
  omega

theorem allocate (h : Free l used) (ha : MemoryManager.allocate bytes l = some (a, l')) :
    Free l' fun i => used i ∨ (a.toNat ≤ i ∧ i < a.toNat + bytes) := by
  have hbare := h.allocate_bare ha
  obtain ⟨before, b, after, rfl, hle, rfl, hl'⟩ := allocate_carves ha h.bounded
  have hn : b.range.1 + bytes ≤ b.range.2 := by
    rw [range_fst, range_snd]
    omega
  obtain ⟨hcanonical, hcovers, hinside⟩ := h
  rw [rangesOf_append, rangesOf_cons] at hcanonical hcovers
  refine ⟨by rw [hl']; exact canonical_carve hcanonical hn, fun i => ?_, fun i hi => ?_⟩
  · rw [hl', covers_carve hcanonical hn, hcovers, range_fst, not_or, and_assoc]
  · exact hi.elim (hinside i) fun hi => (hbare i hi).1

/-- What is given back fits between the blocks that start below it and the others. -/
theorem fits (h : Free l used) (hpos : 1 ≤ bytes) (hused : ∀ i, a.toNat ≤ i → i < a.toNat + bytes → used i) :
    Fits (a.toNat, a.toNat + bytes) (rangesOf (l.takeWhile fun b => b.startAddress < a))
      (rangesOf (l.dropWhile fun b => b.startAddress < a)) := by
  have hsplit : rangesOf (l.takeWhile fun b => b.startAddress < a) ++
      rangesOf (l.dropWhile fun b => b.startAddress < a) = rangesOf l := by
    rw [← rangesOf_append, List.takeWhile_append_dropWhile]
  refine ⟨by simp only; omega, by rw [hsplit]; exact h.canonical, fun r hr => ?_, fun r hr => ?_, ?_⟩
  · obtain ⟨b, hb, rfl⟩ := List.mem_map.mp hr
    have hlt := List.mem_takeWhile_imp hb
    simpa [UInt16.lt_iff_toNat_lt, range_fst] using hlt
  · refine h.canonical.above a.toNat r ?_
    have hsame : (rangesOf l).dropWhile (fun r => decide (r.1 < a.toNat)) =
        rangesOf (l.dropWhile fun b => b.startAddress < a) := by
      rw [rangesOf, List.dropWhile_map]
      simp only [Function.comp_def, range_fst, ← UInt16.lt_iff_toNat_lt]
      rfl
    rw [hsame]
    exact hr
  · intro i hi hlt
    rw [hsplit, h.covers]
    exact fun hfree => hfree.2 (hused i hi hlt)

theorem free (h : Free l used) (hpos : 1 ≤ bytes)
    (hused : ∀ i, a.toNat ≤ i → i < a.toNat + bytes → used i) :
    Free (MemoryManager.free a bytes l) fun i => used i ∧ ¬ (a.toNat ≤ i ∧ i < a.toNat + bytes) := by
  have hfits := h.fits hpos hused
  refine ⟨by rw [free_joins]; exact canonical_joinLeft hfits, fun i => ?_, fun i hi => h.inside i hi.1⟩
  rw [free_joins, covers_joinLeft hfits, ← rangesOf_append, List.takeWhile_append_dropWhile, h.covers]
  by_cases hin : a.toNat ≤ i ∧ i < a.toNat + bytes
  · have := h.inside i (hused i hin.1 hin.2)
    simp only [hin, and_self, true_or, not_true, and_false, not_false_eq_true, and_true, true_iff]
    exact this
  · simp only [hin, false_or, not_false_eq_true, and_true]

end Free

theorem History.free_list {l : List MemoryBlock} {used : Nat → Prop} (h : History l used) : Free l used := by
  induction h with
  | fresh => exact Free.fresh
  | reset => exact Free.fresh
  | allocate _ _ ha ih => exact ih.allocate ha
  | free a _ hpos hused ih => exact ih.free hpos hused

/-! ### What the free list promises -/

/-- What the rest of the VM may rely on: a sorted list of blocks below the GUI flag
with a gap after each, holding every byte that is not in use and no other. -/
structure Partition (l : List MemoryBlock) (used : Nat → Prop) : Prop where
  sorted : l.Pairwise fun b c => b.startAddress < c.startAddress
  positive : ∀ b ∈ l, 0 < b.size
  inside : ∀ b ∈ l, b.startAddress.toNat + b.size ≤ ramSize - VMconf.framebufferTotSize - 1
  gaps : l.Pairwise fun b c => b.startAddress.toNat + b.size < c.startAddress.toNat
  free : ∀ i, (∃ b ∈ l, b.startAddress.toNat ≤ i ∧ i < b.startAddress.toNat + b.size) ↔
    i < ramSize - VMconf.framebufferTotSize - 1 ∧ ¬ used i

theorem Free.partition {l : List MemoryBlock} {used : Nat → Prop} (h : Free l used) : Partition l used where
  sorted := by
    refine (List.pairwise_map.mp h.canonical.gaps).imp_of_mem fun {b c} hb _ hgap => ?_
    have hpos := h.canonical.nonempty _ (List.mem_map_of_mem hb)
    rw [UInt16.lt_iff_toNat_lt]
    exact hpos.trans hgap
  positive b hb := by
    have hpos := h.canonical.nonempty _ (List.mem_map_of_mem hb)
    rw [range_fst, range_snd] at hpos
    omega
  inside b hb := h.bounded b hb
  gaps := List.pairwise_map.mp h.canonical.gaps
  free i := by
    rw [show ramSize - VMconf.framebufferTotSize - 1 = guiFlag from rfl, ← h.covers]
    simp [Covers, rangesOf, range_fst, range_snd]

theorem checkIntegrity_of_gaps {l : List MemoryBlock}
    (h : l.Pairwise fun b c => b.startAddress.toNat + b.size < c.startAddress.toNat) :
    checkIntegrity l = true := by
  induction l with
  | nil => rfl
  | cons prev l ih =>
    cases l with
    | nil => rfl
    | cons it rest =>
      obtain ⟨hprev, hrest⟩ := List.pairwise_cons.mp h
      have hgap := hprev it (List.mem_cons_self ..)
      rw [checkIntegrity, if_neg (by rw [UInt16.lt_iff_toNat_lt]; omega), if_neg (by omega)]
      exact ih hrest

/-- The sum that `allocate` stores as a start address fits it, in whichever block it
takes from. -/
theorem Partition.no_wrap {l : List MemoryBlock} {used : Nat → Prop} (h : Partition l used) {b : MemoryBlock}
    (hb : b ∈ l) {bytes : Nat} (hle : bytes ≤ b.size) :
    (b.startAddress + UInt16.ofNat bytes).toNat = b.startAddress.toNat + bytes := by
  have hinside := h.inside b hb
  have hlimit : ramSize - VMconf.framebufferTotSize - 1 = 59903 := rfl
  rw [UInt16.toNat_add, UInt16.toNat_ofNat']
  omega

/-- **The free list is the partition of what is not in use**, after any history of
allocations and releases; an allocation hands out bytes that were not in use, and no
start address wraps. -/
theorem free_list_partition (l : List MemoryBlock) (used : Nat → Prop) (h : History l used) :
    Partition l used ∧ checkIntegrity l = true ∧
      (∀ bytes a l', allocate bytes l = some (a, l') → ∀ i, a.toNat ≤ i → i < a.toNat + bytes →
        i < ramSize - VMconf.framebufferTotSize - 1 ∧ ¬ used i) ∧
      ∀ b ∈ l, ∀ bytes ≤ b.size,
        (b.startAddress + UInt16.ofNat bytes).toNat = b.startAddress.toNat + bytes := by
  have hfree := h.free_list
  have hpartition := hfree.partition
  exact ⟨hpartition, checkIntegrity_of_gaps hpartition.gaps,
    fun bytes a l' ha i hi hlt => hfree.allocate_bare ha i ⟨hi, hlt⟩,
    fun b hb bytes hle => hpartition.no_wrap hb hle⟩

theorem history_three : History [⟨0, 10⟩, ⟨30, 59873⟩] fun i =>
    ((False ∨ (0 ≤ i ∧ i < 0 + 10)) ∨ (10 ≤ i ∧ i < 10 + 20)) ∧ ¬ (0 ≤ i ∧ i < 0 + 10) := by
  have hfirst : History [⟨10, 59893⟩] _ :=
    .allocate .fresh (by decide) (show MemoryManager.allocate 10 whole = some (0, _) from rfl)
  have hsecond : History [⟨30, 59873⟩] _ :=
    .allocate hfirst (by decide) (show MemoryManager.allocate 20 [⟨10, 59893⟩] = some (10, _) from rfl)
  exact .free 0 hsecond (by decide) fun i hi hlt => .inl (.inr ⟨hi, hlt⟩)

/-- Two segments are taken and the first is given back. -/
theorem free_list_partition_three : checkIntegrity [⟨0, 10⟩, ⟨30, 59873⟩] = true :=
  (free_list_partition _ _ history_three).2.1

/-! ### Releases in any order -/

/-- The bytes of a segment. -/
def MemoryBlock.Holds (b : MemoryBlock) (i : Nat) : Prop :=
  b.startAddress.toNat ≤ i ∧ i < b.startAddress.toNat + b.size

/-- The segments are given back one after another. -/
def freeAll (segments l : List MemoryBlock) : List MemoryBlock :=
  segments.foldl (fun l s => free s.startAddress s.size l) l

/-- Segments in use: none is empty, and no two have a byte in common. -/
structure Segments (segments : List MemoryBlock) (used : Nat → Prop) : Prop where
  positive : ∀ s ∈ segments, 1 ≤ s.size
  inUse : ∀ s ∈ segments, ∀ i, MemoryBlock.Holds s i → used i
  disjoint : segments.Pairwise fun s t => ∀ i, MemoryBlock.Holds s i → ¬ MemoryBlock.Holds t i

theorem Segments.perm {order order' : List MemoryBlock} {used : Nat → Prop} (h : Segments order used)
    (hperm : order.Perm order') : Segments order' used where
  positive s hs := h.positive s (hperm.mem_iff.mpr hs)
  inUse s hs := h.inUse s (hperm.mem_iff.mpr hs)
  disjoint := hperm.pairwise h.disjoint fun hst i ht hs => hst i hs ht

theorem rangesOf_injective : Function.Injective rangesOf := by
  refine List.map_injective_iff.mpr fun b c h => ?_
  obtain ⟨hstart, hend⟩ := Prod.mk.inj h
  have hsize : b.size = c.size := by omega
  cases b
  cases c
  rw [MemoryBlock.mk.injEq]
  exact ⟨UInt16.toNat_inj.mp hstart, hsize⟩

/-- The bytes in use determine the free list, block by block. -/
theorem Free.unique {l l' : List MemoryBlock} {used used' : Nat → Prop} (h : Free l used) (h' : Free l' used')
    (hsame : ∀ i, used i ↔ used' i) : l = l' :=
  rangesOf_injective (h.canonical.ext h'.canonical fun i => by rw [h.covers, h'.covers, hsame])

/-- Releases take their bytes out of use, whatever their order. -/
theorem Free.freeAll {order l : List MemoryBlock} {used : Nat → Prop} (h : Free l used)
    (horder : Segments order used) :
    Free (freeAll order l) fun i => used i ∧ ∀ s ∈ order, ¬ MemoryBlock.Holds s i := by
  induction order generalizing l used with
  | nil => simpa [MemoryManager.freeAll] using h
  | cons s order ih =>
    obtain ⟨hpos, hused, hdisjoint⟩ := horder
    obtain ⟨hapart, hdisjoint⟩ := List.pairwise_cons.mp hdisjoint
    have hfirst := h.free (a := s.startAddress) (hpos s (List.mem_cons_self ..))
      fun i hi hlt => hused s (List.mem_cons_self ..) i ⟨hi, hlt⟩
    -- the others are still in use: they have no byte of the first
    have hrest := ih hfirst ⟨fun t ht => hpos t (List.mem_cons_of_mem s ht),
      fun t ht i hi => ⟨hused t (List.mem_cons_of_mem s ht) i hi, fun hs => hapart t ht i hs hi⟩, hdisjoint⟩
    simp only [and_assoc] at hrest
    simp only [List.forall_mem_cons]
    exact hrest

/-- A release undoes the allocation. -/
theorem Free.free_allocate {l l' : List MemoryBlock} {used : Nat → Prop} {bytes : Nat} {a : MemAddr}
    (h : Free l used) (hpos : 1 ≤ bytes) (ha : MemoryManager.allocate bytes l = some (a, l')) :
    MemoryManager.free a bytes l' = l := by
  have hbare := h.allocate_bare ha
  refine ((h.allocate ha).free hpos fun i hi hlt => .inr ⟨hi, hlt⟩).unique h fun i => ?_
  constructor
  · rintro ⟨hused | hin, hout⟩
    · exact hused
    · exact absurd hin hout
  · exact fun hused => ⟨.inl hused, fun hin => (hbare i hin).2 hused⟩

/-- **Freeing is exact and order independent.** After any history a release undoes the
allocation before it; disjoint segments lead to the same free list in whichever order
they are given back; and when they are all that is in use, to the initial block. -/
theorem free_exact (l : List MemoryBlock) (used : Nat → Prop) (h : History l used) :
    (∀ bytes a l', 1 ≤ bytes → allocate bytes l = some (a, l') → free a bytes l' = l) ∧
      (∀ order order', Segments order used → order.Perm order' → freeAll order l = freeAll order' l) ∧
      ∀ order, Segments order used → (∀ i, used i → ∃ s ∈ order, MemoryBlock.Holds s i) →
        freeAll order l = whole := by
  have hfree := h.free_list
  refine ⟨fun bytes a l' hpos ha => hfree.free_allocate hpos ha, fun order order' horder hperm => ?_,
    fun order horder hall => ?_⟩
  · refine (hfree.freeAll horder).unique (hfree.freeAll (horder.perm hperm)) fun i => ?_
    simp only [hperm.mem_iff]
  · refine (hfree.freeAll horder).unique Free.fresh fun i => ?_
    refine ⟨fun ⟨hused, hnone⟩ => ?_, False.elim⟩
    obtain ⟨s, hs, hi⟩ := hall i hused
    exact hnone s hs hi

/-- The second segment, given back too. -/
theorem free_exact_three : freeAll [⟨10, 20⟩] [⟨0, 10⟩, ⟨30, 59873⟩] = whole := by
  refine (free_exact _ _ history_three).2.2 _ ⟨by simp, ?_, by simp⟩ ?_
  · rintro s hs i ⟨hi, hlt⟩
    obtain rfl := List.mem_singleton.mp hs
    have hstart : (10 : MemAddr).toNat = 10 := rfl
    simp only [hstart] at hi hlt
    exact ⟨.inr ⟨hi, hlt⟩, by omega⟩
  · rintro i ⟨(hnone | hin) | hin, hout⟩
    · exact hnone.elim
    · exact absurd hin hout
    · exact ⟨_, List.mem_singleton_self _, hin⟩

/-! ### First fit -/

/-- `MemoryManager::allocate` with its iterator, the blocks before it in `passed`: what is
returned or raised, and the free list left behind. -/
def allocateLoop (bytes : Nat) (passed : List MemoryBlock) :
    List MemoryBlock → Except LoadError MemAddr × List MemoryBlock
  | [] => (.error (.allocation bytes), passed)
  | it :: rest =>
    if bytes ≤ it.size then
      let size := it.size - bytes
      let startAddress := it.startAddress + UInt16.ofNat bytes
      (.ok it.startAddress, passed ++ if size = 0 then rest else ⟨startAddress, size⟩ :: rest)
    else allocateLoop bytes (passed ++ [it]) rest

/-- The loop is `allocate`; without a match it leaves the list as it was. -/
theorem allocateLoop_eq (bytes : Nat) (passed l : List MemoryBlock) : allocateLoop bytes passed l =
    match allocate bytes l with
    | some (a, l') => (.ok a, passed ++ l')
    | none => (.error (.allocation bytes), passed ++ l) := by
  induction l generalizing passed with
  | nil => simp [allocateLoop, allocate]
  | cons it rest ih =>
    by_cases hfit : bytes ≤ it.size
    · simp only [allocateLoop, allocate, if_pos hfit]
    · simp only [allocateLoop, allocate, if_neg hfit, ih]
      cases allocate bytes rest with
      | none => simp
      | some result => simp

/-- The `bytes` bytes from `a` on are free. -/
def Room (used : Nat → Prop) (bytes a : Nat) : Prop :=
  ∀ i, a ≤ i → i < a + bytes → i < ramSize - VMconf.framebufferTotSize - 1 ∧ ¬ used i

/-- Free bytes in a row lie in one block. -/
theorem Free.room {l : List MemoryBlock} {used : Nat → Prop} {bytes a : Nat} (h : Free l used)
    (hpos : 1 ≤ bytes) (hroom : Room used bytes a) :
    ∃ b ∈ l, b.startAddress.toNat ≤ a ∧ a + bytes ≤ b.startAddress.toNat + b.size := by
  obtain ⟨r, hr, hfit⟩ := h.canonical.run hpos fun i hi hlt => (h.covers i).mpr (hroom i hi hlt)
  obtain ⟨b, hb, rfl⟩ := List.mem_map.mp hr
  exact ⟨b, hb, hfit⟩

/-- The first block that is large enough is the one taken from. -/
theorem allocate_first {bytes : Nat} {l l' : List MemoryBlock} {a : MemAddr}
    (h : allocate bytes l = some (a, l')) : ∃ before b after, l = before ++ b :: after ∧
      a = b.startAddress ∧ bytes ≤ b.size ∧ ∀ c ∈ before, c.size < bytes := by
  induction l generalizing l' with
  | nil => exact absurd h (by simp [allocate])
  | cons b rest ih =>
    rw [allocate] at h
    by_cases hfit : bytes ≤ b.size
    · rw [if_pos hfit] at h
      obtain ⟨rfl, -⟩ := Prod.mk.inj (Option.some.inj h)
      exact ⟨[], b, rest, rfl, rfl, hfit, by simp⟩
    · rw [if_neg hfit] at h
      obtain ⟨⟨a, rest'⟩, hrest, heq⟩ := Option.map_eq_some_iff.mp h
      obtain ⟨rfl, -⟩ := Prod.mk.inj heq
      obtain ⟨before, c, after, rfl, ha, hle, hsmall⟩ := ih hrest
      refine ⟨b :: before, c, after, rfl, ha, hle, fun d hd => ?_⟩
      rcases List.mem_cons.mp hd with rfl | hd
      · omega
      · exact hsmall d hd

theorem allocate_none {bytes : Nat} {l : List MemoryBlock} :
    allocate bytes l = none ↔ ∀ b ∈ l, b.size < bytes := by
  induction l with
  | nil => simp [allocate]
  | cons b rest ih =>
    rw [allocate, List.forall_mem_cons]
    by_cases hfit : bytes ≤ b.size
    · rw [if_pos hfit]
      simp only [reduceCtorEq, false_iff]
      omega
    · rw [if_neg hfit, Option.map_eq_none_iff, ih]
      exact (and_iff_right (by omega)).symm

/-- What is handed out starts no later than any other room of that size. -/
theorem Free.allocate_least {l l' : List MemoryBlock} {used : Nat → Prop} {bytes : Nat} {a : MemAddr}
    (h : Free l used) (hpos : 1 ≤ bytes) (ha : MemoryManager.allocate bytes l = some (a, l')) {a' : Nat}
    (hroom : Room used bytes a') : a.toNat ≤ a' := by
  obtain ⟨c, hc, hstart, hend⟩ := h.room hpos hroom
  obtain ⟨before, b, after, rfl, rfl, -, hsmall⟩ := allocate_first ha
  have hgaps := List.pairwise_map.mp h.canonical.gaps
  obtain ⟨-, hafter, -⟩ := List.pairwise_append.mp hgaps
  rcases List.mem_append.mp hc with hc | hc
  · have := hsmall c hc
    omega
  · rcases List.mem_cons.mp hc with rfl | hc
    · exact hstart
    · have hbehind := (List.pairwise_cons.mp hafter).1 c hc
      rw [range_fst, range_snd] at hbehind
      omega

/-- **Allocation is complete and takes the lowest address**, after any history: it
raises exactly when no such run of free bytes is left, and then changes nothing. -/
theorem allocate_complete (l : List MemoryBlock) (used : Nat → Prop) (h : History l used) (bytes : Nat)
    (hpos : 1 ≤ bytes) :
    (∀ a l', allocateLoop bytes [] l = (.ok a, l') →
      Room used bytes a.toNat ∧ ∀ a', Room used bytes a' → a.toNat ≤ a') ∧
    ((∃ e, (allocateLoop bytes [] l).1 = .error e) ↔ ¬ ∃ a, Room used bytes a) ∧
    ∀ e l', allocateLoop bytes [] l = (.error e, l') → e = .allocation bytes ∧ l' = l := by
  have hfree := h.free_list
  rw [allocateLoop_eq]
  cases halloc : allocate bytes l with
  | none =>
    have hsmall := allocate_none.mp halloc
    refine ⟨fun a l' h => by simp at h, iff_of_true ⟨_, rfl⟩ ?_, fun e l' h => ?_⟩
    · rintro ⟨a, hroom⟩
      obtain ⟨b, hb, hstart, hend⟩ := hfree.room hpos hroom
      have := hsmall b hb
      omega
    · obtain ⟨he, hl⟩ := Prod.mk.inj h
      exact ⟨(Except.error.inj he).symm, hl.symm⟩
  | some result =>
    obtain ⟨a, l'⟩ := result
    have hroom : Room used bytes a.toNat := fun i hi hlt => hfree.allocate_bare halloc i ⟨hi, hlt⟩
    refine ⟨fun b m h => ?_, iff_of_false (by simp) (not_not.mpr ⟨a.toNat, hroom⟩), fun e m h => by simp at h⟩
    obtain rfl : a = b := Except.ok.inj (Prod.mk.inj h).1
    exact ⟨hroom, fun a' ha' => hfree.allocate_least hpos halloc ha'⟩

/-- Eleven bytes do not fit the gap of ten. -/
theorem allocate_complete_three :
    allocateLoop 11 [] [⟨0, 10⟩, ⟨30, 59873⟩] = (.ok 30, [⟨0, 10⟩, ⟨41, 59862⟩]) ∧
      Room (fun i => ((False ∨ (0 ≤ i ∧ i < 0 + 10)) ∨ (10 ≤ i ∧ i < 10 + 20)) ∧
        ¬ (0 ≤ i ∧ i < 0 + 10)) 11 30 :=
  ⟨rfl, ((allocate_complete _ _ history_three 11 (by decide)).1 30 _ rfl).1⟩

end MemoryManager

/-- The free list of a VM has such a history: each load allocates, a reset starts over. -/
theorem Session.history {vm : VM} {procs : List Process} (h : Session vm procs) :
    ∃ used, MemoryManager.History vm.freeList used := by
  induction h with
  | fresh => exact ⟨_, .fresh⟩
  | setGui _ _ ih => exact ih
  | reset _ ih =>
    obtain ⟨used, ih⟩ := ih
    exact ⟨_, .reset ih⟩
  | @load vm vm' procs proc bytecode _ hload ih =>
    obtain ⟨used, ih⟩ := ih
    obtain ⟨firstSector, ha, -⟩ := load_ok hload
    exact ⟨_, .allocate ih (by omega) ha⟩
  | run _ _ _ _ hrun ih =>
    obtain ⟨used, ih⟩ := ih
    exact ⟨used, (Machine.keeps_reaches hrun).freeList ▸ ih⟩
  | leave _ _ ih => exact ih

end CustomIsaVm
