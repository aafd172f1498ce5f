import Mathlib.Data.List.Infix
import Mathlib.Data.List.Count
import Mathlib.Tactic.Common
import CustomIsaVm.Lib.Fold

/-! Brackets in a text.

`depth` scans a text and counts the brackets that are open; it gives up at a closing
bracket when none is. Reading it off prefixes, a text is `Overclosed` or not
(`depth_none`), and `Balanced` if nothing stays open either. `closing` finds the
bracket that closes what is open, `closing_eq_some` says that it does.

`Stacked` is a loop over the text that keeps a stack: one entry more at an opening
bracket, one less at a closing one. It fails at the first closing bracket too many
(`Stacked.overclosed`), and across a balanced text it leaves its stack as it was
(`Stacked.balanced`). -/
namespace CustomIsaVm.Brackets
open Fold

section Scan
variable {α : Type} [DecidableEq α] (l r : α)

/-- The brackets open at the end of a text, `n` being open before it. -/
def depth : Nat → List α → Option Nat
  | n, [] => some n
  | n, c :: s =>
    if c = l then depth (n + 1) s
    else if c = r then if n = 0 then none else depth (n - 1) s
    else depth n s

/-- Some prefix closes more brackets than it opens. -/
def Overclosed (s : List α) : Prop := ∃ p, p <+: s ∧ p.count l < p.count r

def Balanced (s : List α) : Prop := ¬ Overclosed l r s ∧ s.count l = s.count r

/-- What stands before and behind the bracket that closes one more than the `n` that
the text itself has opened. -/
def closing : Nat → List α → Option (List α × List α)
  | _, [] => none
  | n, c :: s =>
    if c = l then (closing (n + 1) s).map fun (v, w) => (c :: v, w)
    else if c = r then
      if n = 0 then some ([], s) else (closing (n - 1) s).map fun (v, w) => (c :: v, w)
    else (closing n s).map fun (v, w) => (c :: v, w)

variable {l r}

@[simp] theorem depth_nil (n : Nat) : depth l r n [] = some n := rfl

@[simp] theorem depth_open (n : Nat) (s : List α) : depth l r n (l :: s) = depth l r (n + 1) s := by
  rw [depth, if_pos rfl]

theorem depth_close_zero (hlr : l ≠ r) (s : List α) : depth l r 0 (r :: s) = none := by
  rw [depth, if_neg hlr.symm, if_pos rfl, if_pos rfl]

theorem depth_close (hlr : l ≠ r) (n : Nat) (s : List α) :
    depth l r (n + 1) (r :: s) = depth l r n s := by
  rw [depth, if_neg hlr.symm, if_pos rfl, if_neg (Nat.succ_ne_zero n), Nat.add_sub_cancel]

theorem depth_other {c : α} (hl : c ≠ l) (hr : c ≠ r) (n : Nat) (s : List α) :
    depth l r n (c :: s) = depth l r n s := by
  rw [depth, if_neg hl, if_neg hr]

theorem depth_append (n : Nat) (s t : List α) :
    depth l r n (s ++ t) = (depth l r n s).bind fun m => depth l r m t := by
  induction s generalizing n with
  | nil => rfl
  | cons c s ih =>
    rw [List.cons_append, depth, depth]
    split
    next => exact ih (n + 1)
    next =>
      split
      next =>
        split
        next => rfl
        next => exact ih (n - 1)
      next => exact ih n

/-- Brackets that are open from the start stay open. -/
theorem depth_add {n m : Nat} (k : Nat) {s : List α} (h : depth l r n s = some m) :
    depth l r (n + k) s = some (m + k) := by
  induction s generalizing n with
  | nil =>
    cases h
    rfl
  | cons c s ih =>
    rw [depth] at h ⊢
    split at h
    next hl =>
      rw [if_pos hl, Nat.add_right_comm]
      exact ih h
    next hl =>
      rw [if_neg hl]
      split at h
      next hr =>
        rw [if_pos hr]
        split at h
        next => cases h
        next hn =>
          rw [if_neg (by omega), show n + k - 1 = n - 1 + k by omega]
          exact ih h
      next hr =>
        rw [if_neg hr]
        exact ih h

theorem depth_count (hlr : l ≠ r) {n m : Nat} {s : List α} (h : depth l r n s = some m) :
    n + s.count l = m + s.count r := by
  induction s generalizing n with
  | nil =>
    cases h
    rfl
  | cons c s ih =>
    by_cases hl : c = l
    · subst hl
      rw [depth_open] at h
      have := ih h
      rw [List.count_cons_self, List.count_cons_of_ne hlr]
      omega
    · by_cases hr : c = r
      · subst hr
        cases n with
        | zero =>
          rw [depth_close_zero hlr] at h
          cases h
        | succ n =>
          rw [depth_close hlr] at h
          have := ih h
          rw [List.count_cons_self, List.count_cons_of_ne hl]
          omega
      · rw [depth_other hl hr] at h
        rw [List.count_cons_of_ne hl, List.count_cons_of_ne hr]
        exact ih h

/-- The scan gives up where a prefix closes too many. -/
theorem depth_none (hlr : l ≠ r) {n : Nat} {s : List α} :
    depth l r n s = none ↔ ∃ p, p <+: s ∧ n + p.count l < p.count r := by
  constructor
  · intro h
    induction s generalizing n with
    | nil => cases h
    | cons c s ih =>
      have hcons : ∀ p, p <+: s → c :: p <+: c :: s := fun p hp => List.cons_prefix_cons.mpr ⟨rfl, hp⟩
      by_cases hl : c = l
      · subst hl
        rw [depth_open] at h
        obtain ⟨p, hp, hlt⟩ := ih h
        refine ⟨c :: p, hcons p hp, ?_⟩
        rw [List.count_cons_self, List.count_cons_of_ne hlr]
        omega
      · by_cases hr : c = r
        · subst hr
          cases n with
          | zero => exact ⟨[c], ⟨s, rfl⟩, by simp [List.count_cons_of_ne hl]⟩
          | succ n =>
            rw [depth_close hlr] at h
            obtain ⟨p, hp, hlt⟩ := ih h
            refine ⟨c :: p, hcons p hp, ?_⟩
            rw [List.count_cons_self, List.count_cons_of_ne hl]
            omega
        · rw [depth_other hl hr] at h
          obtain ⟨p, hp, hlt⟩ := ih h
          refine ⟨c :: p, hcons p hp, ?_⟩
          rwa [List.count_cons_of_ne hl, List.count_cons_of_ne hr]
  · rintro ⟨p, ⟨t, rfl⟩, hlt⟩
    rw [depth_append]
    cases hp : depth l r n p with
    | none => rfl
    | some m =>
      have := depth_count hlr hp
      omega

theorem overclosed_iff (hlr : l ≠ r) {s : List α} : Overclosed l r s ↔ depth l r 0 s = none := by
  rw [depth_none hlr]
  simp only [Nat.zero_add]
  rfl

theorem balanced_iff (hlr : l ≠ r) {s : List α} : Balanced l r s ↔ depth l r 0 s = some 0 := by
  rw [Balanced, overclosed_iff hlr]
  constructor
  · rintro ⟨hsome, hcount⟩
    obtain ⟨m, hm⟩ := Option.ne_none_iff_exists'.mp hsome
    have := depth_count hlr hm
    rw [hm, show m = 0 by omega]
  · intro h
    have := depth_count hlr h
    exact ⟨by rw [h]; exact Option.some_ne_none 0, by omega⟩

/-- Read backwards, a balanced text is balanced. -/
theorem Balanced.reverse {s : List α} (h : Balanced l r s) : Balanced r l s.reverse := by
  obtain ⟨hover, hcount⟩ := h
  refine ⟨?_, by rw [List.count_reverse, List.count_reverse, hcount]⟩
  rintro ⟨p, ⟨t, ht⟩, hlt⟩
  refine hover ⟨t.reverse, ⟨p.reverse, ?_⟩, ?_⟩
  · rw [← List.reverse_append, ht, List.reverse_reverse]
  · have hl := congrArg (List.count l) ht
    have hr := congrArg (List.count r) ht
    rw [List.count_append, List.count_reverse] at hl hr
    rw [List.count_reverse, List.count_reverse]
    omega

/-! ### The closing bracket -/

theorem closing_eq_some (hlr : l ≠ r) {n : Nat} {s v w : List α} :
    closing l r n s = some (v, w) ↔ s = v ++ r :: w ∧ depth l r n v = some 0 := by
  induction s generalizing n v with
  | nil => simp [closing]
  | cons c s ih =>
    -- the bracket is further on: `c` belongs to what stands before it
    have hcons : ∀ {m}, depth l r n (c :: v.tail) = depth l r m v.tail → (v = [] → n ≠ 0 ∨ c ≠ r) →
        ((closing l r m s).map (fun (v, w) => (c :: v, w)) = some (v, w) ↔
          c :: s = v ++ r :: w ∧ depth l r n v = some 0) := by
      intro m hdepth hnil
      rw [Option.map_eq_some_iff]
      constructor
      · rintro ⟨⟨v', w'⟩, h, heq⟩
        cases heq
        obtain ⟨rfl, hv⟩ := ih.mp h
        exact ⟨rfl, hdepth.trans hv⟩
      · rintro ⟨heq, hv⟩
        cases v with
        | nil =>
          cases heq
          cases hv
          rcases hnil rfl with h | h <;> exact absurd rfl h
        | cons d v =>
          obtain ⟨rfl, rfl⟩ := List.cons.inj heq
          exact ⟨(v, w), ih.mpr ⟨rfl, hdepth.symm.trans hv⟩, rfl⟩
    rw [closing]
    split
    next hl =>
      subst hl
      exact hcons (depth_open n _) fun _ => .inr hlr
    next hl =>
      split
      next hr =>
        subst hr
        split
        next hn =>
          subst hn
          simp only [Option.some.injEq, Prod.mk.injEq]
          constructor
          · rintro ⟨rfl, rfl⟩
            exact ⟨rfl, rfl⟩
          · rintro ⟨heq, hv⟩
            cases v with
            | nil => exact ⟨rfl, (List.cons.inj heq).2⟩
            | cons d v =>
              obtain ⟨rfl, -⟩ := List.cons.inj heq
              rw [depth_close_zero hlr] at hv
              cases hv
        next hn =>
          obtain ⟨n, rfl⟩ := Nat.exists_eq_succ_of_ne_zero hn
          exact hcons (depth_close hlr n _) fun _ => .inl hn
      next hr => exact hcons (depth_other hl hr n _) fun _ => .inr hr

theorem closing_eq_none {n : Nat} {s : List α} (h : closing l r n s = none) :
    ∃ m, depth l r (n + 1) s = some (m + 1) := by
  induction s generalizing n with
  | nil => exact ⟨n, rfl⟩
  | cons c s ih =>
    rw [closing] at h
    rw [depth]
    split at h
    next hl =>
      rw [if_pos hl]
      exact ih (Option.map_eq_none_iff.mp h)
    next hl =>
      rw [if_neg hl]
      split at h
      next hr =>
        rw [if_pos hr, if_neg (Nat.succ_ne_zero n)]
        split at h
        next => cases h
        next hn =>
          have := ih (Option.map_eq_none_iff.mp h)
          rwa [Nat.sub_add_cancel (Nat.pos_of_ne_zero hn)] at this
      next hr =>
        rw [if_neg hr]
        exact ih (Option.map_eq_none_iff.mp h)

/-- In a balanced text, every opening bracket is closed. -/
theorem Balanced.closes (hlr : l ≠ r) {u s : List α} (h : Balanced l r (u ++ l :: s)) :
    ∃ v w, s = v ++ r :: w ∧ Balanced l r v := by
  rw [balanced_iff hlr, depth_append] at h
  obtain ⟨m, -, hs⟩ := Option.bind_eq_some_iff.mp h
  rw [depth_open] at hs
  cases hc : closing l r 0 s with
  | none =>
    obtain ⟨k, hk⟩ := closing_eq_none hc
    rw [Nat.zero_add] at hk
    rw [Nat.add_comm, depth_add m hk, Option.some.injEq] at hs
    omega
  | some vw =>
    obtain ⟨v, w⟩ := vw
    obtain ⟨heq, hv⟩ := (closing_eq_some hlr).mp hc
    exact ⟨v, w, heq, (balanced_iff hlr).mpr hv⟩

end Scan

/-! ### Loops with a stack -/

section Stack
variable {ε σ α β : Type} [DecidableEq α]

/-- The loop `f` keeps its open brackets on a stack, and fails with `e` when it finds
none to close. -/
structure Stacked (f : σ → α → Except ε σ) (stack : σ → List β) (l r : α) (e : ε) : Prop where
  ne : l ≠ r
  push : ∀ s, ∃ t b, f s l = .ok t ∧ stack t = b :: stack s
  pop : ∀ s b st, stack s = b :: st → ∃ t, f s r = .ok t ∧ stack t = st
  empty : ∀ s, stack s = [] → f s r = .error e
  other : ∀ s c, c ≠ l → c ≠ r → ∃ t, f s c = .ok t ∧ stack t = stack s

namespace Stacked
variable {f : σ → α → Except ε σ} {stack : σ → List β} {l r : α} {e : ε}

/-- The induction is on the text; only entries above `st` are ever touched. -/
theorem run (h : Stacked f stack l r e) {text : List α} {s : σ} {ts st : List β} {m : Nat}
    (hs : stack s = ts ++ st) (hd : depth l r ts.length text = some m) :
    ∃ t ts', text.foldlM f s = .ok t ∧ stack t = ts' ++ st ∧ ts'.length = m := by
  induction text generalizing s ts with
  | nil =>
    cases hd
    exact ⟨s, ts, rfl, hs, rfl⟩
  | cons c text ih =>
    by_cases hl : c = l
    · subst hl
      obtain ⟨u, b, hu, hstack⟩ := h.push s
      rw [depth_open] at hd
      have hpush : stack u = (b :: ts) ++ st := by rw [hstack, hs]; rfl
      obtain ⟨t, ts', ht, hrest⟩ := ih hpush hd
      exact ⟨t, ts', foldlM_cons_eq_ok.mpr ⟨u, hu, ht⟩, hrest⟩
    · by_cases hr : c = r
      · subst hr
        cases ts with
        | nil =>
          rw [List.length_nil, depth_close_zero h.ne] at hd
          cases hd
        | cons b ts =>
          obtain ⟨u, hu, hstack⟩ := h.pop s b (ts ++ st) hs
          rw [List.length_cons, depth_close h.ne] at hd
          obtain ⟨t, ts', ht, hrest⟩ := ih hstack hd
          exact ⟨t, ts', foldlM_cons_eq_ok.mpr ⟨u, hu, ht⟩, hrest⟩
      · obtain ⟨u, hu, hstack⟩ := h.other s c hl hr
        rw [depth_other hl hr] at hd
        obtain ⟨t, ts', ht, hrest⟩ := ih (hstack.trans hs) hd
        exact ⟨t, ts', foldlM_cons_eq_ok.mpr ⟨u, hu, ht⟩, hrest⟩

/-- Across a balanced text the stack stays what it was. -/
theorem balanced (h : Stacked f stack l r e) {text : List α} (hb : Balanced l r text) (s : σ) :
    ∃ t, text.foldlM f s = .ok t ∧ stack t = stack s := by
  have hs : stack s = [] ++ stack s := rfl
  obtain ⟨t, ts, ht, hstack, hlen⟩ := h.run hs ((balanced_iff h.ne).mp hb)
  rw [List.length_eq_zero_iff.mp hlen] at hstack
  exact ⟨t, ht, hstack⟩

theorem fails (h : Stacked f stack l r e) {text : List α} {s : σ}
    (hd : depth l r (stack s).length text = none) : text.foldlM f s = .error e := by
  induction text generalizing s with
  | nil => cases hd
  | cons c text ih =>
    have hstep : ∀ {u}, f s c = .ok u → text.foldlM f u = .error e → (c :: text).foldlM f s = .error e :=
      fun hu h => by rw [List.foldlM_cons, hu]; exact h
    by_cases hl : c = l
    · subst hl
      obtain ⟨u, b, hu, hstack⟩ := h.push s
      rw [depth_open] at hd
      exact hstep hu (ih (by rw [hstack]; exact hd))
    · by_cases hr : c = r
      · subst hr
        cases hs : stack s with
        | nil =>
          rw [List.foldlM_cons, h.empty s hs]
          rfl
        | cons b st =>
          obtain ⟨u, hu, hstack⟩ := h.pop s b st hs
          rw [hs, List.length_cons, depth_close h.ne] at hd
          exact hstep hu (ih (by rw [hstack]; exact hd))
      · obtain ⟨u, hu, hstack⟩ := h.other s c hl hr
        rw [depth_other hl hr] at hd
        exact hstep hu (ih (by rw [hstack]; exact hd))

theorem overclosed (h : Stacked f stack l r e) {text : List α} (ho : Overclosed l r text) {s : σ}
    (hs : stack s = []) : text.foldlM f s = .error e :=
  h.fails (by rw [hs]; exact (overclosed_iff h.ne).mp ho)

/-- From an empty stack, the loop ends with as many entries as brackets stay open. -/
theorem ends (h : Stacked f stack l r e) {text : List α} (ho : ¬ Overclosed l r text) {s : σ}
    (hs : stack s = []) : ∃ t, text.foldlM f s = .ok t ∧
      (stack t).length + text.count r = text.count l := by
  rw [overclosed_iff h.ne] at ho
  obtain ⟨m, hm⟩ := Option.ne_none_iff_exists'.mp ho
  have hnil : stack s = [] ++ [] := hs
  obtain ⟨t, ts, ht, hstack, hlen⟩ := h.run hnil hm
  have := depth_count h.ne hm
  refine ⟨t, ht, ?_⟩
  rw [hstack, List.append_nil, hlen]
  omega

end Stacked
end Stack

end CustomIsaVm.Brackets
