import Mathlib.Data.List.Basic
import Mathlib.Data.List.Infix

/-! Deterministic systems, and what can be seen of them.

A `System` goes on or ends from each of its states, and what it has printed so
far can be read off any state. `after` counts its steps. Two facts are all that
an observer has: which texts get printed along the run (`Prints`), and how the
run ends and with what text (`EndsWith`); a run that never ends is one that
`EndsWith` nothing. `SameBehaviour` says two systems agree on both.

`Simulation` is the way to get there: whenever two states are related, both runs
end alike, or both make progress (at least one step each) to states that are
related again. The two sides may take different numbers of steps. -/
namespace CustomIsaVm

/-- A deterministic system over states `σ`, ending with an `ε`, printing `β`s. -/
structure System (σ ε β : Type) where
  next : σ → Except ε σ
  output : σ → List β
  /-- What is printed stays printed. -/
  output_next : ∀ {s t : σ}, next s = .ok t → output s <+: output t

namespace System
variable {σ τ ε β : Type}

/-- The state after `n` steps, if the run gets that far. -/
def after (S : System σ ε β) : Nat → σ → Option σ
  | 0, s => some s
  | n + 1, s => match S.next s with
    | .ok t => S.after n t
    | .error _ => none

def Reaches (S : System σ ε β) (s t : σ) : Prop := ∃ n, S.after n s = some t

/-- At least one step. -/
def Progress (S : System σ ε β) (s t : σ) : Prop := ∃ n, S.after (n + 1) s = some t

def Ends (S : System σ ε β) (s : σ) (e : ε) (t : σ) : Prop := S.Reaches s t ∧ S.next t = .error e

def EndsWith (S : System σ ε β) (s : σ) (e : ε) (o : List β) : Prop :=
  ∃ t, S.Ends s e t ∧ S.output t = o

/-- `o` is printed at some point of the run, possibly with more after it. -/
def Prints (S : System σ ε β) (s : σ) (o : List β) : Prop := ∃ t, S.Reaches s t ∧ o <+: S.output t

def SameBehaviour (S : System σ ε β) (s : σ) (T : System τ ε β) (t : τ) : Prop :=
  (∀ o, S.Prints s o ↔ T.Prints t o) ∧ (∀ e o, S.EndsWith s e o ↔ T.EndsWith t e o)

theorem SameBehaviour.refl (S : System σ ε β) (s : σ) : SameBehaviour S s S s :=
  ⟨fun _ => Iff.rfl, fun _ _ => Iff.rfl⟩

theorem SameBehaviour.symm {S : System σ ε β} {s : σ} {T : System τ ε β} {t : τ}
    (h : SameBehaviour S s T t) : SameBehaviour T t S s :=
  ⟨fun o => (h.1 o).symm, fun e o => (h.2 e o).symm⟩

theorem SameBehaviour.trans {υ : Type} {S : System σ ε β} {s : σ} {T : System τ ε β} {t : τ}
    {U : System υ ε β} {u : υ} (h : SameBehaviour S s T t) (k : SameBehaviour T t U u) :
    SameBehaviour S s U u :=
  ⟨fun o => (h.1 o).trans (k.1 o), fun e o => (h.2 e o).trans (k.2 e o)⟩

variable (S : System σ ε β)

/-! ### Counting steps -/

@[simp] theorem after_zero (s : σ) : S.after 0 s = some s := rfl

theorem after_succ_ok {s t : σ} (h : S.next s = .ok t) (n : Nat) :
    S.after (n + 1) s = S.after n t := by
  simp only [after, h]

theorem after_succ_error {s : σ} {e : ε} (h : S.next s = .error e) (n : Nat) :
    S.after (n + 1) s = none := by
  simp only [after, h]

theorem after_add (m n : Nat) (s : σ) : S.after (m + n) s = (S.after m s).bind (S.after n) := by
  induction m generalizing s with
  | zero => simp
  | succ m ih =>
    rw [show m + 1 + n = m + n + 1 by omega]
    cases h : S.next s with
    | ok t => rw [after_succ_ok S h, after_succ_ok S h, ih]
    | error e => rw [after_succ_error S h, after_succ_error S h, Option.bind_none]

/-- Where there is no step, nothing else is reached. -/
theorem after_stuck {n : Nat} {s t : σ} (h : ∀ u, S.next s ≠ .ok u) (hn : S.after n s = some t) : t = s := by
  cases n with
  | zero => cases hn; rfl
  | succ n =>
    cases hnext : S.next s with
    | ok u => exact absurd hnext (h u)
    | error e => rw [after_succ_error S hnext] at hn; cases hn

/-- A state past `m` steps is reached from the state at `m`. -/
theorem after_sub {m n : Nat} {s t u : σ} (hm : S.after m s = some t) (hn : S.after n s = some u)
    (h : m ≤ n) : S.after (n - m) t = some u := by
  rw [show n = m + (n - m) by omega, after_add, hm] at hn
  exact hn

/-- Nothing follows the state a run ends in. -/
theorem after_end {k n : Nat} {s t : σ} {e : ε} (hk : S.after k s = some t) (he : S.next t = .error e)
    (h : k < n) : S.after n s = none := by
  rw [show n = k + ((n - k - 1) + 1) by omega, after_add, hk]
  exact after_succ_error S he _

variable {S}

theorem Reaches.refl (s : σ) : S.Reaches s s := ⟨0, rfl⟩

theorem Reaches.trans {s t u : σ} (h : S.Reaches s t) (k : S.Reaches t u) : S.Reaches s u := by
  obtain ⟨m, hm⟩ := h
  obtain ⟨n, hn⟩ := k
  exact ⟨m + n, by rw [after_add, hm]; exact hn⟩

theorem Progress.single {s t : σ} (h : S.next s = .ok t) : S.Progress s t :=
  ⟨0, by rw [after_succ_ok S h]; rfl⟩

theorem Progress.reaches {s t : σ} (h : S.Progress s t) : S.Reaches s t :=
  let ⟨n, hn⟩ := h; ⟨n + 1, hn⟩

theorem Reaches.single {s t : σ} (h : S.next s = .ok t) : S.Reaches s t :=
  (Progress.single h).reaches

theorem Progress.trans_reaches {s t u : σ} (h : S.Progress s t) (k : S.Reaches t u) :
    S.Progress s u := by
  obtain ⟨m, hm⟩ := h
  obtain ⟨n, hn⟩ := k
  exact ⟨m + n, by rw [show m + n + 1 = m + 1 + n by omega, after_add, hm]; exact hn⟩

theorem Progress.trans {s t u : σ} (h : S.Progress s t) (k : S.Progress t u) : S.Progress s u :=
  h.trans_reaches k.reaches

theorem Reaches.trans_progress {s t u : σ} (h : S.Reaches s t) (k : S.Progress t u) :
    S.Progress s u := by
  obtain ⟨m, hm⟩ := h
  obtain ⟨n, hn⟩ := k
  exact ⟨m + n, by rw [show m + n + 1 = m + (n + 1) by omega, after_add, hm]; exact hn⟩

theorem Ends.of_reaches {s t u : σ} {e : ε} (h : S.Reaches s t) (k : S.Ends t e u) : S.Ends s e u :=
  ⟨h.trans k.1, k.2⟩

/-- The run rule: what holds at the start and survives a step holds all along. -/
theorem Reaches.invariant {I : σ → Prop} (step : ∀ s t, I s → S.next s = .ok t → I t) {s t : σ}
    (h : S.Reaches s t) (hs : I s) : I t := by
  obtain ⟨n, hn⟩ := h
  induction n generalizing s with
  | zero => cases hn; exact hs
  | succ n ih =>
    cases hnext : S.next s with
    | ok u =>
      rw [after_succ_ok S hnext] at hn
      exact ih (step s u hs hnext) hn
    | error e => rw [after_succ_error S hnext] at hn; cases hn

theorem Reaches.output_prefix {s t : σ} (h : S.Reaches s t) : S.output s <+: S.output t :=
  h.invariant (I := fun u => S.output s <+: S.output u)
    (fun _ _ hu hnext => hu.trans (S.output_next hnext)) (List.prefix_refl _)

/-- What is left of a run that ends. -/
theorem Ends.after {s t u v : σ} {e : ε} (h : S.Reaches s t) (hnext : S.next t = .ok u)
    (k : S.Ends s e v) : S.Ends u e v := by
  obtain ⟨⟨n, hn⟩, he⟩ := k
  obtain ⟨m, hm⟩ := h
  have hm' : S.after (m + 1) s = some u := by
    rw [after_add, hm]
    exact after_succ_ok S hnext 0
  by_cases hle : m + 1 ≤ n
  · exact ⟨⟨n - (m + 1), after_sub S hm' hn hle⟩, he⟩
  · rw [after_end S hn he (by omega)] at hm'
    cases hm'

/-- How a run ends is determined. -/
theorem Ends.unique {s t u : σ} {e f : ε} (h : S.Ends s e t) (k : S.Ends s f u) : e = f ∧ t = u := by
  obtain ⟨⟨m, hm⟩, he⟩ := h
  obtain ⟨⟨n, hn⟩, hf⟩ := k
  rcases Nat.lt_trichotomy m n with hlt | rfl | hlt
  · rw [after_end S hm he hlt] at hn; cases hn
  · have ht : t = u := Option.some.inj (hm.symm.trans hn)
    subst ht
    exact ⟨Except.error.inj (he.symm.trans hf), rfl⟩
  · rw [after_end S hn hf hlt] at hm; cases hm

/-- A run behaves as what is left of it. -/
theorem SameBehaviour.step {s t : σ} (h : S.next s = .ok t) : SameBehaviour S s S t := by
  refine ⟨fun o => ⟨?_, ?_⟩, fun e o => ⟨?_, ?_⟩⟩
  · rintro ⟨u, ⟨n, hn⟩, ho⟩
    cases n with
    | zero =>
      cases hn
      exact ⟨t, .refl t, ho.trans (S.output_next h)⟩
    | succ n =>
      rw [after_succ_ok S h] at hn
      exact ⟨u, ⟨n, hn⟩, ho⟩
  · rintro ⟨u, hu, ho⟩
    exact ⟨u, (Reaches.single h).trans hu, ho⟩
  · rintro ⟨u, ⟨⟨n, hn⟩, he⟩, ho⟩
    cases n with
    | zero =>
      cases hn
      rw [h] at he
      cases he
    | succ n =>
      rw [after_succ_ok S h] at hn
      exact ⟨u, ⟨⟨n, hn⟩, he⟩, ho⟩
  · rintro ⟨u, hu, ho⟩
    exact ⟨u, .of_reaches (.single h) hu, ho⟩

theorem SameBehaviour.of_reaches {s t : σ} (h : S.Reaches s t) : SameBehaviour S s S t :=
  h.invariant (I := fun u => SameBehaviour S s S u) (fun _ _ hu hnext => hu.trans (.step hnext)) (.refl S s)

/-! ### Runs whose steps all meet a condition -/

/-- The first `n` steps all start from states that meet `C`. -/
def Within (S : System σ ε β) (C : σ → Prop) (n : Nat) (s : σ) : Prop :=
  ∀ k < n, ∀ t, S.after k s = some t → C t

theorem Within.mono {C : σ → Prop} {m n : Nat} {s : σ} (h : S.Within C n s) (hmn : m ≤ n) :
    S.Within C m s :=
  fun k hk => h k (Nat.lt_of_lt_of_le hk hmn)

theorem Within.head {C : σ → Prop} {n : Nat} {s : σ} (h : S.Within C (n + 1) s) : C s :=
  h 0 (Nat.succ_pos n) s rfl

theorem Within.tail {C : σ → Prop} {n : Nat} {s t : σ} (h : S.Within C (n + 1) s)
    (hnext : S.next s = .ok t) : S.Within C n t :=
  fun k hk u hu => h (k + 1) (Nat.succ_lt_succ hk) u (by rw [after_succ_ok S hnext]; exact hu)

/-- The run rule under a condition on the steps. -/
theorem Within.invariant {C I : σ → Prop} (step : ∀ s t, I s → C s → S.next s = .ok t → I t)
    {n : Nat} {s t : σ} (hc : S.Within C n s) (hn : S.after n s = some t) (hs : I s) : I t := by
  induction n generalizing s with
  | zero => cases hn; exact hs
  | succ n ih =>
    cases hnext : S.next s with
    | ok u =>
      rw [after_succ_ok S hnext] at hn
      exact ih (hc.tail hnext) hn (step s u hs hc.head hnext)
    | error e => rw [after_succ_error S hnext] at hn; cases hn

/-! ### Traces -/

/-- The labels of the first `n` steps. -/
def trace {α : Type} (S : System σ ε β) (label : σ → Option α) : Nat → σ → List α
  | 0, _ => []
  | n + 1, s => match S.next s with
    | .ok t => (label s).toList ++ S.trace label n t
    | .error _ => []

theorem trace_succ_ok {α : Type} {label : σ → Option α} {s t : σ} (h : S.next s = .ok t) (n : Nat) :
    S.trace label (n + 1) s = (label s).toList ++ S.trace label n t := by
  simp only [trace, h]

theorem mem_trace {α : Type} {label : σ → Option α} {a : α} {n : Nat} {s : σ} (h : a ∈ S.trace label n s) :
    ∃ k t u, k < n ∧ S.after k s = some t ∧ S.next t = .ok u ∧ label t = some a := by
  induction n generalizing s with
  | zero => cases h
  | succ n ih =>
    cases hnext : S.next s with
    | error e => simp only [trace, hnext, List.not_mem_nil] at h
    | ok v =>
      rw [trace_succ_ok hnext, List.mem_append] at h
      rcases h with h | h
      · exact ⟨0, s, v, Nat.succ_pos n, rfl, hnext, Option.mem_toList.mp h⟩
      · obtain ⟨k, t, u, hk, ht, hu, hlabel⟩ := ih h
        exact ⟨k + 1, t, u, Nat.succ_lt_succ hk, by rw [after_succ_ok S hnext, ht], hu, hlabel⟩

/-- A device that each step works as its label says has been worked by the trace. -/
theorem Within.device {α δ : Type} {act : δ → α → δ} {label : σ → Option α} {C : σ → Prop} {R : σ → δ → Prop}
    (step : ∀ s t d, R s d → C s → S.next s = .ok t → R t ((label s).toList.foldl act d))
    {n : Nat} {s t : σ} {d : δ} (hc : S.Within C n s) (hn : S.after n s = some t) (hs : R s d) :
    R t ((S.trace label n s).foldl act d) := by
  induction n generalizing s d with
  | zero => cases hn; exact hs
  | succ n ih =>
    cases hnext : S.next s with
    | ok u =>
      rw [after_succ_ok S hnext] at hn
      rw [trace_succ_ok hnext, List.foldl_append]
      exact ih (hc.tail hnext) hn (step s u d hs hc.head hnext)
    | error e => rw [after_succ_error S hnext] at hn; cases hn

/-! ### Simulation -/

/-- Two runs that keep meeting in related states. -/
structure Simulation (S : System σ ε β) (T : System τ ε β) where
  Rel : σ → τ → Prop
  output : ∀ {s t}, Rel s t → S.output s = T.output t
  advance : ∀ {s t}, Rel s t →
    (∃ e s' t', S.Ends s e s' ∧ T.Ends t e t' ∧ S.output s' = T.output t') ∨
      ∃ s' t', S.Progress s s' ∧ T.Progress t t' ∧ Rel s' t'

namespace Simulation
variable {T : System τ ε β}

def symm (M : Simulation S T) : Simulation T S where
  Rel t s := M.Rel s t
  output h := (M.output h).symm
  advance h := by
    rcases M.advance h with ⟨e, s', t', hs, ht, ho⟩ | ⟨s', t', hs, ht, hr⟩
    · exact .inl ⟨e, t', s', ht, hs, ho.symm⟩
    · exact .inr ⟨t', s', ht, hs, hr⟩

/-- Each text of the first run is printed by the second. The induction is on the
steps the first run takes; a meeting point that lies beyond them covers it. -/
theorem prints (M : Simulation S T) {s : σ} {t : τ} (h : M.Rel s t) {o : List β}
    (hp : S.Prints s o) : T.Prints t o := by
  obtain ⟨u, ⟨n, hn⟩, ho⟩ := hp
  induction n using Nat.strong_induction_on generalizing s t with
  | _ n ih =>
    rcases M.advance h with ⟨e, s', t', ⟨⟨k, hk⟩, he⟩, ht, hout⟩ | ⟨s', t', ⟨k, hk⟩, ht, hr⟩
    · have hnk : n ≤ k := by
        by_contra hlt
        rw [after_end S hk he (by omega)] at hn
        cases hn
      have hreach : S.Reaches u s' := ⟨k - n, after_sub S hn hk hnk⟩
      exact ⟨t', ht.1, hout ▸ ho.trans hreach.output_prefix⟩
    · by_cases hnk : n ≤ k + 1
      · have hreach : S.Reaches u s' := ⟨k + 1 - n, after_sub S hn hk hnk⟩
        exact ⟨t', ht.reaches, M.output hr ▸ ho.trans hreach.output_prefix⟩
      · obtain ⟨w, hw, how⟩ := ih (n - (k + 1)) (by omega) hr (after_sub S hk hn (by omega))
        exact ⟨w, ht.reaches.trans hw, how⟩

theorem endsWith (M : Simulation S T) {s : σ} {t : τ} (h : M.Rel s t) {e : ε} {o : List β}
    (he : S.EndsWith s e o) : T.EndsWith t e o := by
  obtain ⟨u, ⟨⟨n, hn⟩, hu⟩, ho⟩ := he
  induction n using Nat.strong_induction_on generalizing s t with
  | _ n ih =>
    rcases M.advance h with ⟨f, s', t', hs, ht, hout⟩ | ⟨s', t', ⟨k, hk⟩, ht, hr⟩
    · obtain ⟨rfl, rfl⟩ := Ends.unique ⟨⟨n, hn⟩, hu⟩ hs
      exact ⟨t', ht, hout ▸ ho⟩
    · have hnk : k + 1 ≤ n := by
        by_contra hlt
        rw [after_end S hn hu (by omega)] at hk
        cases hk
      obtain ⟨w, hw, how⟩ := ih (n - (k + 1)) (by omega) hr (after_sub S hk hn hnk)
      exact ⟨w, .of_reaches ht.reaches hw, how⟩

/-- **Systems that keep meeting behave alike.** -/
theorem same (M : Simulation S T) {s : σ} {t : τ} (h : M.Rel s t) : SameBehaviour S s T t :=
  ⟨fun _ => ⟨M.prints h, M.symm.prints h⟩, fun _ _ => ⟨M.endsWith h, M.symm.endsWith h⟩⟩

end Simulation

/-! ### Two runs in step with each other -/

/-- Two runs stay related step for step, as long as the first meets `C`, and end alike. -/
theorem lockstep {T : System τ ε β} {R : σ → τ → Prop} {C : σ → Prop}
    (go : ∀ s t s', R s t → C s → S.next s = .ok s' → ∃ t', T.next t = .ok t' ∧ R s' t')
    {n : Nat} {s : σ} {t : τ} (hr : R s t) (hc : S.Within C n s) {s' : σ}
    (hn : S.after n s = some s') : ∃ t', T.after n t = some t' ∧ R s' t' := by
  induction n generalizing s t with
  | zero => cases hn; exact ⟨t, rfl, hr⟩
  | succ n ih =>
    cases hnext : S.next s with
    | ok u =>
      obtain ⟨v, hv, hr'⟩ := go s t u hr hc.head hnext
      rw [after_succ_ok S hnext] at hn
      obtain ⟨t', ht', hrel⟩ := ih hr' (hc.tail hnext) hn
      exact ⟨t', by rw [after_succ_ok T hv]; exact ht', hrel⟩
    | error e => rw [after_succ_error S hnext] at hn; cases hn

/-! ### Runs that come to an end -/

/-- A run that keeps `I` and lowers `μ` with each of its steps up to `P`, comes to `P` before
`μ` is used up. -/
theorem settles {I P : σ → Prop} {μ : σ → Nat}
    (step : ∀ s, I s → P s ∨ ∃ t, S.next s = .ok t ∧ I t ∧ μ t < μ s) {s : σ} (hs : I s) :
    ∃ n ≤ μ s, ∃ t, S.after n s = some t ∧ I t ∧ P t := by
  induction hm : μ s using Nat.strongRecOn generalizing s with
  | _ m ih =>
    rcases step s hs with hend | ⟨t, ht, hI, hlt⟩
    · exact ⟨0, Nat.zero_le _, s, rfl, hs, hend⟩
    · obtain ⟨n, hn, u, hafter, hu⟩ := ih (μ t) (hm ▸ hlt) hI rfl
      exact ⟨n + 1, by omega, u, by rw [after_succ_ok S ht]; exact hafter, hu⟩

end System
end CustomIsaVm
