import Mathlib.Data.Fintype.Pigeonhole

/-! Loops as partial functions on states.

A loop is a function `f : α → Option α`: on to the next state, or out. `steps f n a`
is the state `n` rounds after `a`, and `stop f n a` the state in which the loop ends,
if it does so in fewer than `n` rounds. A loop that comes back to a state never ends
(`Returns.steps`); over finitely many states that is the only way not to end
(`stop_iff`), and the number of states is fuel enough. -/
namespace CustomIsaVm.Orbit

variable {α β : Type}

/-- The state `n` rounds on, if the loop goes on so long. -/
def steps (f : α → Option α) : Nat → α → Option α
  | 0, a => some a
  | n + 1, a => (f a).bind (steps f n)

/-- The state in which the loop ends. -/
def stop (f : α → Option α) : Nat → α → Option α
  | 0, _ => none
  | n + 1, a => match f a with
    | none => some a
    | some b => stop f n b

/-- The loop comes back to a state it has been in. -/
def Returns (f : α → Option α) (a : α) : Prop :=
  ∃ i j b, i < j ∧ steps f i a = some b ∧ steps f j a = some b

variable {f : α → Option α} {a b c : α}

theorem steps_add (m n : Nat) (a : α) : steps f (m + n) a = (steps f m a).bind (steps f n) := by
  induction m generalizing a with
  | zero => rw [Nat.zero_add]; rfl
  | succ m ih =>
    rw [Nat.succ_add, steps, steps, Option.bind_assoc]
    exact congrArg (f a).bind (funext ih)

theorem steps_of_le {m n : Nat} (h : m ≤ n) (hn : steps f n a = some b) : ∃ c, steps f m a = some c := by
  obtain ⟨k, rfl⟩ := Nat.exists_eq_add_of_le h
  rw [steps_add] at hn
  obtain ⟨c, hc, _⟩ := Option.bind_eq_some_iff.mp hn
  exact ⟨c, hc⟩

/-- What every round keeps holds in every state. -/
theorem steps_keeps {P : α → Prop} (hP : ∀ a b, P a → f a = some b → P b) (ha : P a) {n : Nat}
    (h : steps f n a = some b) : P b := by
  induction n generalizing a with
  | zero => cases h; exact ha
  | succ n ih =>
    obtain ⟨c, hc, h⟩ := Option.bind_eq_some_iff.mp h
    exact ih (hP a c ha hc) h

/-! ### Where a loop ends -/

theorem stop_none {n : Nat} : stop f n a = none ↔ ∃ b, steps f n a = some b := by
  induction n generalizing a with
  | zero => exact ⟨fun _ => ⟨a, rfl⟩, fun _ => rfl⟩
  | succ n ih =>
    rw [stop, steps]
    cases f a with
    | none => simp
    | some b => exact ih

/-- The loop ends in a state from which it does not go on, and whatever every round
keeps holds there. -/
theorem stop_some {n : Nat} {P : α → Prop} (hP : ∀ a b, P a → f a = some b → P b) (ha : P a)
    (h : stop f n a = some b) : f b = none ∧ P b := by
  induction n generalizing a with
  | zero => cases h
  | succ n ih =>
    rw [stop] at h
    cases hf : f a with
    | none =>
      rw [hf] at h
      cases h
      exact ⟨hf, ha⟩
    | some c =>
      rw [hf] at h
      exact ih (hP a c ha hf) h

/-! ### Coming back -/

theorem Returns.steps (h : Returns f a) (n : Nat) : ∃ b, Orbit.steps f n a = some b := by
  obtain ⟨i, j, b, hij, hi, hj⟩ := h
  obtain ⟨k, rfl⟩ := Nat.exists_eq_add_of_lt hij
  have hloop : Orbit.steps f (k + 1) b = some b := by
    rw [Nat.add_assoc, steps_add, hi] at hj
    exact hj
  have hround : ∀ r, Orbit.steps f (r * (k + 1)) b = some b := by
    intro r
    induction r with
    | zero => rw [Nat.zero_mul]; rfl
    | succ r ih => rw [Nat.succ_mul, steps_add, ih]; exact hloop
  refine steps_of_le (show n ≤ i + n * (k + 1) from ?_) (by rw [steps_add, hi]; exact hround n)
  exact (Nat.le_mul_of_pos_right n (Nat.succ_pos k)).trans (Nat.le_add_left _ _)

/-- The states that satisfy `P` are told apart by finitely many values: a loop through
as many of them has come back. -/
theorem returns_of_steps [Fintype β] {P : α → Prop} (g : α → β)
    (hP : ∀ a b, P a → f a = some b → P b) (hg : ∀ a b, P a → P b → g a = g b → a = b) (ha : P a)
    {n : Nat} (hn : Fintype.card β ≤ n) (h : Orbit.steps f n a = some b) : Returns f a := by
  have hall : ∀ i : Fin (n + 1), ∃ c, Orbit.steps f i a = some c := fun i =>
    steps_of_le (Nat.le_of_lt_succ i.isLt) h
  choose state hstate using hall
  obtain ⟨i, j, hne, hij⟩ := Fintype.exists_ne_map_eq_of_card_lt (fun i => g (state i))
    (by rw [Fintype.card_fin]; omega)
  have hsame : state i = state j :=
    hg _ _ (steps_keeps hP ha (hstate i)) (steps_keeps hP ha (hstate j)) hij
  rcases Nat.lt_or_gt_of_ne (fun heq => hne (Fin.ext heq)) with hlt | hlt
  · exact ⟨i, j, state i, hlt, hstate i, by rw [hstate j, hsame]⟩
  · exact ⟨j, i, state i, hlt, by rw [hstate j, hsame], hstate i⟩

/-- **A loop over finitely many states ends if and only if it never comes back.** -/
theorem stop_iff [Fintype β] {P : α → Prop} (g : α → β) (hP : ∀ a b, P a → f a = some b → P b)
    (hg : ∀ a b, P a → P b → g a = g b → a = b) (ha : P a) {n : Nat} (hn : Fintype.card β ≤ n) :
    stop f n a = none ↔ Returns f a := by
  rw [stop_none]
  constructor
  · rintro ⟨b, hb⟩
    exact returns_of_steps g hP hg ha hn hb
  · exact fun h => h.steps n

end CustomIsaVm.Orbit
