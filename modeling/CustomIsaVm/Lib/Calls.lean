import Mathlib.Logic.Relation

/-! Programs that call subroutines, and the stack they need.

`Flow` is what can be read off a program: from which place to which it goes on, where it
calls what, and where it returns. A `Step` acts on the place the running subroutine is at
and the places its callers wait at. `height` is what a subroutine has on the stack at a
place, and `link` what a call puts there. A `bound` on what a subroutine and all that it
calls have there (`Bounded`) is a bound for the whole row (`Bounded.fits`). -/
namespace CustomIsaVm.Calls

structure Flow (α : Type) where
  goes : α → α → Prop
  /-- From a place to the first of a subroutine, which comes back to the third. -/
  calls : α → α → α → Prop
  returns : α → Prop

variable {α : Type}

/-- The place of the running subroutine, and those its callers go on from. -/
inductive Step (F : Flow α) : List α → List α → Prop
  | go {k k' : α} {js : List α} (h : F.goes k k') : Step F (k :: js) (k' :: js)
  | call {k t j : α} {js : List α} (h : F.calls k t j) : Step F (k :: js) (t :: j :: js)
  | ret {k j : α} {js : List α} (h : F.returns k) : Step F (k :: j :: js) (j :: js)

/-- What there is on the stack under the running subroutine. -/
def under (link : Nat) (height : α → Nat) : List α → Nat
  | [] => 0
  | j :: js => height j + link + under link height js

/-- At no place more than `bound` is taken by what goes on from there, until it returns. -/
structure Bounded (F : Flow α) (link : Nat) (height bound : α → Nat) : Prop where
  height_le : ∀ k, height k ≤ bound k
  goes : ∀ {k k'}, F.goes k k' → bound k' ≤ bound k
  calls : ∀ {k t j}, F.calls k t j → height j + link + bound t ≤ bound k ∧ bound j ≤ bound k

/-- Each of the subroutines has room for its bound. -/
def Spared (link : Nat) (height bound : α → Nat) (limit : Nat) : List α → Prop
  | [] => True
  | k :: js => bound k + under link height js ≤ limit ∧ Spared link height bound limit js

variable {F : Flow α} {link limit : Nat} {height bound : α → Nat} {js js' : List α}

/-- A step leaves room. -/
theorem Bounded.step (h : Bounded F link height bound) (hstep : Step F js js')
    (hroom : Spared link height bound limit js) : Spared link height bound limit js' := by
  cases hstep with
  | go hgoes =>
    have := h.goes hgoes
    have := hroom.1
    exact ⟨by omega, hroom.2⟩
  | call hcalls =>
    have := h.calls hcalls
    have := hroom.1
    refine ⟨?_, by omega, hroom.2⟩
    show _ + (height _ + link + under link height _) ≤ limit
    omega
  | ret => exact hroom.2

/-- **What is bounded at the start is bounded in every run.** -/
theorem Bounded.fits (h : Bounded F link height bound) {start k : α}
    (hrun : Relation.ReflTransGen (Step F) [start] (k :: js)) : height k + under link height js ≤ bound start := by
  have hroom : Spared link height bound (bound start) (k :: js) := by
    generalize hrow : k :: js = row at hrun
    clear hrow
    induction hrun with
    | refl => exact ⟨Nat.le_refl _, trivial⟩
    | tail _ hstep ih => exact h.step hstep ih
  have := h.height_le k
  have := hroom.1
  omega

end CustomIsaVm.Calls
