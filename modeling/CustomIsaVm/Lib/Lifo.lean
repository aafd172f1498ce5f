import Mathlib.Data.List.Basic

/-! A bounded stack, the last pushed on top.

A stack is the list of what it holds, the top first. Operations push a block of
elements or pop a number of them; a push past the capacity and a pop of more than
there is are faults. `matched` is the law a caller relies on: however many
operations lie in between, if the stack was never shorter than it is now and is as
high again, it is the same stack. -/
namespace CustomIsaVm.Lifo

variable {α : Type}

inductive Op (α : Type) where
  | push (block : List α)
  | pop (n : Nat)
  deriving DecidableEq, Repr

inductive Fault where
  | overflow
  | underflow
  deriving DecidableEq, Repr

def apply (capacity : Nat) (s : List α) : Op α → Except Fault (List α)
  | .push block => if block.length + s.length ≤ capacity then .ok (block ++ s) else .error .overflow
  | .pop n => if n ≤ s.length then .ok (s.drop n) else .error .underflow

def exec (capacity : Nat) (s : List α) : List (Op α) → Except Fault (List α)
  | [] => .ok s
  | op :: ops => match apply capacity s op with
    | .ok t => exec capacity t ops
    | .error e => .error e

/-- The stack never gets shorter than `d` on the way. -/
def Above (capacity d : Nat) (s : List α) : List (Op α) → Prop
  | [] => d ≤ s.length
  | op :: ops => d ≤ s.length ∧ match apply capacity s op with
    | .ok t => Above capacity d t ops
    | .error _ => True

variable {capacity : Nat}

theorem exec_append (s : List α) (a b : List (Op α)) :
    exec capacity s (a ++ b) = (exec capacity s a).bind fun t => exec capacity t b := by
  induction a generalizing s with
  | nil => rfl
  | cons op a ih =>
    rw [List.cons_append, exec, exec]
    cases apply capacity s op with
    | ok t => exact ih t
    | error e => rfl

/-- An operation that leaves `d` elements leaves the lowest `d` as they were. -/
theorem apply_bottom {d : Nat} {s t : List α} {op : Op α} (h : apply capacity s op = .ok t)
    (hs : d ≤ s.length) (ht : d ≤ t.length) : t.drop (t.length - d) = s.drop (s.length - d) := by
  cases op with
  | push block =>
    simp only [apply] at h
    split at h
    · cases h
      rw [List.length_append, List.drop_append]
      rw [List.drop_of_length_le (by omega), List.nil_append]
      congr 1
      omega
    · cases h
  | pop n =>
    simp only [apply] at h
    split at h
    · cases h
      rw [List.length_drop] at ht ⊢
      rw [List.drop_drop]
      congr 1
      omega
    · cases h

theorem exec_bottom {d : Nat} {s t : List α} {ops : List (Op α)} (h : exec capacity s ops = .ok t)
    (ha : Above capacity d s ops) : d ≤ t.length ∧ t.drop (t.length - d) = s.drop (s.length - d) := by
  induction ops generalizing s with
  | nil => cases h; exact ⟨ha, rfl⟩
  | cons op ops ih =>
    rw [exec] at h
    rw [Above] at ha
    cases hop : apply capacity s op with
    | ok u =>
      rw [hop] at h ha
      obtain ⟨ht, hbottom⟩ := ih h ha.2
      have hu : d ≤ u.length := by
        cases ops with
        | nil => exact ha.2
        | cons _ _ => exact ha.2.1
      exact ⟨ht, hbottom.trans (apply_bottom hop ha.1 hu)⟩
    | error e => rw [hop] at h; cases h

/-- **Last in, first out.** A stack that is as high again, and was never shorter on
the way, is the same stack. -/
theorem matched {s t : List α} {ops : List (Op α)} (h : exec capacity s ops = .ok t)
    (ha : Above capacity s.length s ops) (hlen : t.length = s.length) : t = s := by
  have hbottom := (exec_bottom h ha).2
  rwa [hlen, Nat.sub_self, List.drop_zero, List.drop_zero] at hbottom

end CustomIsaVm.Lifo
