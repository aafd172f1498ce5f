import Mathlib.Tactic.Common

/-! Reasoning about programs that update a state and may fail.

A program is an `EStateM`: from a state it returns a value and the next state, or
fails, and the state it had reached stays. `Ensures x Q E s` says what running `x`
from `s` comes to, in either case; its rules follow the program's syntax, so that
`simp` computes it. Two notions are built on it: `Respects ρ x`, that every run of
`x` stays within the preorder `ρ` (a frame rule, closed under everything programs
are made of), and `Alike`, that two programs return related values in related
states or fail with the same error. -/
namespace CustomIsaVm.Effect

variable {ε σ τ α β γ δ : Type}

/-! ### Sequencing -/

theorem bind_ok {x : EStateM ε σ α} {f : α → EStateM ε σ β} {s t : σ} {a : α} (h : x s = .ok a t) :
    (x >>= f) s = f a t := by
  show EStateM.bind x f s = f a t
  simp only [EStateM.bind, h]

theorem bind_error {x : EStateM ε σ α} {f : α → EStateM ε σ β} {s t : σ} {e : ε}
    (h : x s = .error e t) : (x >>= f) s = .error e t := by
  show EStateM.bind x f s = .error e t
  simp only [EStateM.bind, h]

theorem bind_run (x : EStateM ε σ α) (f : α → EStateM ε σ β) (s : σ) :
    (x >>= f) s = match x s with
      | .ok a t => f a t
      | .error e t => .error e t := by
  cases h : x s with
  | ok a t => rw [bind_ok h]
  | error e t => rw [bind_error h]

theorem pure_run (a : α) (s : σ) : (pure a : EStateM ε σ α) s = .ok a s := rfl

theorem get_run (s : σ) : (get : EStateM ε σ σ) s = .ok s s := rfl

theorem modify_run (f : σ → σ) (s : σ) : (modify f : EStateM ε σ PUnit) s = .ok ⟨⟩ (f s) := rfl

/-- A sequence that completes has completed in both parts. -/
theorem bind_eq_ok {x : EStateM ε σ α} {f : α → EStateM ε σ β} {s u : σ} {b : β} :
    (x >>= f) s = .ok b u ↔ ∃ a t, x s = .ok a t ∧ f a t = .ok b u := by
  cases h : x s with
  | ok a t =>
    rw [bind_ok h]
    constructor
    · exact fun hf => ⟨a, t, rfl, hf⟩
    · rintro ⟨a', t', heq, hf⟩
      cases heq
      exact hf
  | error e t =>
    rw [bind_error h]
    constructor
    · intro hf; cases hf
    · rintro ⟨a', t', heq, _⟩
      cases heq

/-! ### What a run comes to -/

/-- Run from `s`, `x` returns as `Q` says or fails as `E` says. -/
def Ensures (x : EStateM ε σ α) (Q : α → σ → Prop) (E : ε → σ → Prop) (s : σ) : Prop :=
  match x s with
  | .ok a t => Q a t
  | .error e t => E e t

theorem ensures_of_ok {x : EStateM ε σ α} {Q : α → σ → Prop} {E : ε → σ → Prop} {s t : σ} {a : α}
    (h : x s = .ok a t) : Ensures x Q E s ↔ Q a t := by
  simp only [Ensures, h]

theorem ensures_of_error {x : EStateM ε σ α} {Q : α → σ → Prop} {E : ε → σ → Prop} {s t : σ} {e : ε}
    (h : x s = .error e t) : Ensures x Q E s ↔ E e t := by
  simp only [Ensures, h]

theorem Ensures.ok {x : EStateM ε σ α} {Q : α → σ → Prop} {E : ε → σ → Prop} {s t : σ} {a : α}
    (h : Ensures x Q E s) (hx : x s = .ok a t) : Q a t := (ensures_of_ok hx).mp h

theorem Ensures.error {x : EStateM ε σ α} {Q : α → σ → Prop} {E : ε → σ → Prop} {s t : σ} {e : ε}
    (h : Ensures x Q E s) (hx : x s = .error e t) : E e t := (ensures_of_error hx).mp h

theorem Ensures.mono {x : EStateM ε σ α} {Q Q' : α → σ → Prop} {E E' : ε → σ → Prop} {s : σ}
    (h : Ensures x Q E s) (hQ : ∀ a t, Q a t → Q' a t) (hE : ∀ e t, E e t → E' e t) :
    Ensures x Q' E' s := by
  unfold Ensures at h ⊢
  cases hx : x s with
  | ok a t => rw [hx] at h; exact hQ a t h
  | error e t => rw [hx] at h; exact hE e t h

variable {Q : α → σ → Prop} {E : ε → σ → Prop} {s : σ}

@[simp] theorem ensures_pure (a : α) : Ensures (pure a : EStateM ε σ α) Q E s ↔ Q a s := Iff.rfl

@[simp] theorem ensures_throw (e : ε) : Ensures (throw e : EStateM ε σ α) Q E s ↔ E e s := Iff.rfl

@[simp] theorem ensures_get {Q : σ → σ → Prop} : Ensures (get : EStateM ε σ σ) Q E s ↔ Q s s := Iff.rfl

@[simp] theorem ensures_modify {Q : PUnit → σ → Prop} (f : σ → σ) :
    Ensures (modify f : EStateM ε σ PUnit) Q E s ↔ Q ⟨⟩ (f s) := Iff.rfl

@[simp] theorem ensures_bind {Q : β → σ → Prop} (x : EStateM ε σ α) (f : α → EStateM ε σ β) :
    Ensures (x >>= f) Q E s ↔ Ensures x (fun a t => Ensures (f a) Q E t) E s := by
  cases h : x s with
  | ok a t => rw [ensures_of_ok h]; simp only [Ensures, bind_ok h]
  | error e t => rw [ensures_of_error h, ensures_of_error (bind_error h)]

@[simp] theorem ensures_ite {c : Prop} [Decidable c] (x y : EStateM ε σ α) :
    Ensures (if c then x else y) Q E s ↔ (c → Ensures x Q E s) ∧ (¬c → Ensures y Q E s) := by
  by_cases h : c <;> simp [h]

/-- Two facts about one run. -/
theorem Ensures.and {x : EStateM ε σ α} {Q' : α → σ → Prop} {E' : ε → σ → Prop}
    (h : Ensures x Q E s) (k : Ensures x Q' E' s) :
    Ensures x (fun a t => Q a t ∧ Q' a t) (fun e t => E e t ∧ E' e t) s := by
  unfold Ensures at h k ⊢
  cases hx : x s with
  | ok a t => rw [hx] at h k; exact ⟨h, k⟩
  | error e t => rw [hx] at h k; exact ⟨h, k⟩

/-- A run that returns. -/
theorem ensures_returns {x : EStateM ε σ α} :
    Ensures x Q (fun _ _ => False) s ↔ ∃ a t, x s = .ok a t ∧ Q a t := by
  cases h : x s with
  | ok a t =>
    rw [ensures_of_ok h]
    exact ⟨fun hQ => ⟨a, t, rfl, hQ⟩, fun ⟨_, _, heq, hQ⟩ => by cases heq; exact hQ⟩
  | error e t =>
    rw [ensures_of_error h]
    exact ⟨False.elim, fun ⟨_, _, heq, _⟩ => by cases heq⟩

/-- A run that fails. -/
theorem ensures_fails {x : EStateM ε σ α} :
    Ensures x (fun _ _ => False) E s ↔ ∃ e t, x s = .error e t ∧ E e t := by
  cases h : x s with
  | ok a t =>
    rw [ensures_of_ok h]
    exact ⟨False.elim, fun ⟨_, _, heq, _⟩ => by cases heq⟩
  | error e t =>
    rw [ensures_of_error h]
    exact ⟨fun hE => ⟨e, t, rfl, hE⟩, fun ⟨_, _, heq, hE⟩ => by cases heq; exact hE⟩

/-! ### Frames -/

/-- Whatever `x` comes to, the state it leaves is `ρ`-above the one it found. -/
def Respects (ρ : σ → σ → Prop) (x : EStateM ε σ α) : Prop :=
  ∀ s, Ensures x (fun _ t => ρ s t) (fun _ t => ρ s t) s

namespace Respects
variable {ρ : σ → σ → Prop}

theorem ok {x : EStateM ε σ α} (h : Respects ρ x) {s t : σ} {a : α} (hx : x s = .ok a t) : ρ s t :=
  (h s).ok hx

variable [hr : Std.Refl ρ] [ht : IsTrans σ ρ]

omit ht in
theorem pure (a : α) : Respects ρ (Pure.pure a : EStateM ε σ α) := fun s => hr.refl s

omit ht in
theorem throw (e : ε) : Respects ρ (MonadExcept.throw e : EStateM ε σ α) := fun s => hr.refl s

omit ht in
theorem get : Respects ρ (MonadState.get : EStateM ε σ σ) := fun s => hr.refl s

omit hr ht in
theorem update {f : σ → σ} (h : ∀ s, ρ s (f s)) : Respects ρ (modify f : EStateM ε σ PUnit) := h

omit hr in
theorem bind {x : EStateM ε σ α} {f : α → EStateM ε σ β} (hx : Respects ρ x)
    (hf : ∀ a, Respects ρ (f a)) : Respects ρ (x >>= f) := by
  intro s
  rw [ensures_bind]
  refine (hx s).mono (fun a t hst => ?_) fun _ _ h => h
  exact (hf a t).mono (fun _ u htu => ht.trans s t u hst htu) fun _ u htu => ht.trans s t u hst htu

omit hr ht in
theorem ite {c : Prop} [Decidable c] {x y : EStateM ε σ α} (hx : Respects ρ x) (hy : Respects ρ y) :
    Respects ρ (if c then x else y) := by
  split
  · exact hx
  · exact hy

end Respects

/-- `Respects` for the run from `s`. -/
def RespectsAt (ρ : σ → σ → Prop) (x : EStateM ε σ α) (s : σ) : Prop :=
  Ensures x (fun _ t => ρ s t) (fun _ t => ρ s t) s

theorem Respects.at {ρ : σ → σ → Prop} {x : EStateM ε σ α} (h : Respects ρ x) (s : σ) :
    RespectsAt ρ x s := h s

namespace RespectsAt
variable {ρ : σ → σ → Prop}

theorem ok {x : EStateM ε σ α} {s t : σ} {a : α} (h : RespectsAt ρ x s) (hx : x s = .ok a t) : ρ s t :=
  (ensures_of_ok hx).mp h

theorem error {x : EStateM ε σ α} {s t : σ} {e : ε} (h : RespectsAt ρ x s) (hx : x s = .error e t) :
    ρ s t := (ensures_of_error hx).mp h

theorem mono {ρ' : σ → σ → Prop} {x : EStateM ε σ α} {s : σ} (h : RespectsAt ρ x s)
    (hρ : ∀ t, ρ s t → ρ' s t) : RespectsAt ρ' x s :=
  Ensures.mono h (fun _ => hρ) fun _ => hρ

/-- The rest of a run starts from where the first part came to. -/
theorem bind [ht : IsTrans σ ρ] {x : EStateM ε σ α} {f : α → EStateM ε σ β} {s : σ}
    (hx : RespectsAt ρ x s) (hf : ∀ a t, x s = .ok a t → RespectsAt ρ (f a) t) :
    RespectsAt ρ (x >>= f) s := by
  unfold RespectsAt
  cases h : x s with
  | ok a t =>
    rw [ensures_bind, ensures_of_ok h]
    have hst := hx.ok h
    exact Ensures.mono (hf a t h) (fun _ u htu => ht.trans s t u hst htu) fun _ u htu =>
      ht.trans s t u hst htu
  | error e t =>
    rw [ensures_of_error (bind_error h)]
    exact hx.error h

theorem ite {c : Prop} [Decidable c] {x y : EStateM ε σ α} {s : σ} (hx : c → RespectsAt ρ x s)
    (hy : ¬c → RespectsAt ρ y s) : RespectsAt ρ (if c then x else y) s := by
  split
  · exact hx ‹_›
  · exact hy ‹_›

end RespectsAt

/-! ### Updates a program overlooks -/

/-- Run after the update `f`, `x` does what it does without it, and `f` stays applied. -/
def Overlooks (f : σ → σ) (x : EStateM ε σ α) : Prop :=
  ∀ s, x (f s) = match x s with
    | .ok a t => .ok a (f t)
    | .error e t => .error e (f t)

namespace Overlooks
variable {f : σ → σ}

theorem ok {x : EStateM ε σ α} (h : Overlooks f x) {s t : σ} {a : α} (hx : x s = .ok a t) :
    x (f s) = .ok a (f t) := by rw [h s, hx]

theorem error {x : EStateM ε σ α} (h : Overlooks f x) {s t : σ} {e : ε} (hx : x s = .error e t) :
    x (f s) = .error e (f t) := by rw [h s, hx]

theorem pure (a : α) : Overlooks f (Pure.pure a : EStateM ε σ α) := fun _ => rfl

theorem throw (e : ε) : Overlooks f (MonadExcept.throw e : EStateM ε σ α) := fun _ => rfl

theorem update {g : σ → σ} (h : ∀ s, g (f s) = f (g s)) :
    Overlooks f (modify g : EStateM ε σ PUnit) := by
  intro s
  rw [modify_run, modify_run, h]

theorem bind {x : EStateM ε σ α} {k : α → EStateM ε σ β} (hx : Overlooks f x)
    (hk : ∀ a, Overlooks f (k a)) : Overlooks f (x >>= k) := by
  intro s
  cases h : x s with
  | ok a t => rw [bind_ok h, bind_ok (hx.ok h), hk a t]
  | error e t => rw [bind_error h, bind_error (hx.error h)]

/-- What is read of the state is what `f` does not change. -/
theorem get_bind {k : σ → EStateM ε σ α} (h : ∀ s, k (f s) = k s) (hk : ∀ a, Overlooks f (k a)) :
    Overlooks f (MonadState.get >>= k) := by
  intro s
  rw [bind_ok (get_run (f s)), bind_ok (get_run s), h s, hk s s]

theorem ite {c : Prop} [Decidable c] {x y : EStateM ε σ α} (hx : Overlooks f x) (hy : Overlooks f y) :
    Overlooks f (if c then x else y) := by
  split
  · exact hx
  · exact hy

/-- What is overlooked, whatever it is set to, is left as it is. -/
theorem kept {γ : Type} {get : σ → γ} {set : γ → σ → σ} (hself : ∀ s, set (get s) s = s)
    (hget : ∀ g s, get (set g s) = g) {x : EStateM ε σ α} (hx : ∀ g, Overlooks (set g) x) :
    Respects (fun s t => get t = get s) x := by
  intro s
  have hs := hx (get s) s
  rw [hself] at hs
  unfold Ensures
  cases hrun : x s with
  | ok a t =>
    rw [hrun] at hs
    exact (congrArg get (EStateM.Result.ok.inj hs).2).trans (hget _ _)
  | error e t =>
    rw [hrun] at hs
    exact (congrArg get (EStateM.Result.error.inj hs).2).trans (hget _ _)

end Overlooks

/-! ### Two programs -/

/-- From `s` and `t`, both return and `Q` holds of the values and the states, or
both fail with one error and `E` holds of the states. -/
def Alike (x : EStateM ε σ α) (y : EStateM ε τ β) (Q : α → β → σ → τ → Prop) (E : σ → τ → Prop)
    (s : σ) (t : τ) : Prop :=
  match x s, y t with
  | .ok a s', .ok b t' => Q a b s' t'
  | .error e s', .error f t' => e = f ∧ E s' t'
  | .ok _ _, .error _ _ => False
  | .error _ _, .ok _ _ => False

namespace Alike
variable {Q : α → β → σ → τ → Prop} {E : σ → τ → Prop} {s : σ} {t : τ}

theorem ok {x : EStateM ε σ α} {y : EStateM ε τ β} (h : Alike x y Q E s t) {a : α} {s' : σ}
    (hx : x s = .ok a s') : ∃ b t', y t = .ok b t' ∧ Q a b s' t' := by
  unfold Alike at h
  rw [hx] at h
  cases hy : y t with
  | ok b t' => rw [hy] at h; exact ⟨b, t', rfl, h⟩
  | error e t' => rw [hy] at h; exact h.elim

theorem error {x : EStateM ε σ α} {y : EStateM ε τ β} (h : Alike x y Q E s t) {e : ε} {s' : σ}
    (hx : x s = .error e s') : ∃ t', y t = .error e t' ∧ E s' t' := by
  unfold Alike at h
  rw [hx] at h
  cases hy : y t with
  | ok b t' => rw [hy] at h; exact h.elim
  | error f t' => rw [hy] at h; exact ⟨t', by rw [h.1], h.2⟩

theorem update {Q : PUnit → PUnit → σ → τ → Prop} {f : σ → σ} {g : τ → τ} (h : Q ⟨⟩ ⟨⟩ (f s) (g t)) :
    Alike (modify f : EStateM ε σ PUnit) (modify g : EStateM ε τ PUnit) Q E s t := h

theorem bind {Q : γ → δ → σ → τ → Prop} {x : EStateM ε σ α} {y : EStateM ε τ β}
    {f : α → EStateM ε σ γ} {g : β → EStateM ε τ δ}
    (h : Alike x y (fun a b s' t' => Alike (f a) (g b) Q E s' t') E s t) :
    Alike (x >>= f) (y >>= g) Q E s t := by
  cases hx : x s with
  | ok a s' =>
    obtain ⟨b, t', hy, hab⟩ := h.ok hx
    unfold Alike at hab ⊢
    rw [bind_ok hx, bind_ok hy]
    exact hab
  | error e s' =>
    obtain ⟨t', hy, hE⟩ := h.error hx
    unfold Alike
    rw [bind_error hx, bind_error hy]
    exact ⟨rfl, hE⟩

theorem mono {Q' : α → β → σ → τ → Prop} {x : EStateM ε σ α} {y : EStateM ε τ β}
    (h : Alike x y Q E s t) (hQ : ∀ a b s' t', Q a b s' t' → Q' a b s' t') : Alike x y Q' E s t := by
  cases hx : x s with
  | ok a s' =>
    obtain ⟨b, t', hy, hab⟩ := h.ok hx
    unfold Alike
    rw [hx, hy]
    exact hQ a b s' t' hab
  | error e s' =>
    obtain ⟨t', hy, hE⟩ := h.error hx
    unfold Alike
    rw [hx, hy]
    exact ⟨rfl, hE⟩

/-- Facts about each run alone. -/
theorem and {x : EStateM ε σ α} {y : EStateM ε τ β} {ρ : σ → σ → Prop} {ρ' : τ → τ → Prop}
    (h : Alike x y Q E s t) (hx : RespectsAt ρ x s) (hy : RespectsAt ρ' y t) :
    Alike x y (fun a b s' t' => Q a b s' t' ∧ ρ s s' ∧ ρ' t t') E s t := by
  cases hrun : x s with
  | ok a s' =>
    obtain ⟨b, t', hrun', hab⟩ := h.ok hrun
    unfold Alike
    rw [hrun, hrun']
    exact ⟨hab, hx.ok hrun, hy.ok hrun'⟩
  | error e s' =>
    obtain ⟨t', hrun', hE⟩ := h.error hrun
    unfold Alike
    rw [hrun, hrun']
    exact ⟨rfl, hE⟩

theorem ite {c d : Prop} [Decidable c] [Decidable d] {x x' : EStateM ε σ α} {y y' : EStateM ε τ β}
    (hcd : c ↔ d) (h : c → Alike x y Q E s t) (h' : ¬c → Alike x' y' Q E s t) :
    Alike (if c then x else x') (if d then y else y') Q E s t := by
  by_cases hc : c
  · rw [if_pos hc, if_pos (hcd.mp hc)]
    exact h hc
  · rw [if_neg hc, if_neg fun hd => hc (hcd.mpr hd)]
    exact h' hc

end Alike
end CustomIsaVm.Effect
