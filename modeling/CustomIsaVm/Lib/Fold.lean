import Mathlib.Data.List.Forall2
import Mathlib.Tactic.Common

/-! Loops over a list that may fail.

A loop is `List.foldlM` in `Except`. `foldlM_along` is its rule: an invariant that
may speak of the part of the list already seen survives the loop if every turn
keeps it; `foldlM_along₂` is the same for two loops over one list, and `foldlM_follow`
lets one loop follow the other. `mapM_eq_ok` says what a loop that collects its
results has computed. `SameBetween` is for two lists and a loop that does not fail:
some elements are in both, and what stands between them does the same. -/
namespace CustomIsaVm.Fold

variable {ε σ τ α β : Type}

theorem bind_eq_ok {x : Except ε α} {f : α → Except ε β} {b : β} :
    x >>= f = .ok b ↔ ∃ a, x = .ok a ∧ f a = .ok b := by
  cases x with
  | ok a =>
    show f a = .ok b ↔ _
    simp
  | error e =>
    show Except.error e = .ok b ↔ _
    simp

theorem mapM_eq_ok {f : α → Except ε β} {xs : List α} {ys : List β} :
    xs.mapM f = .ok ys ↔ List.Forall₂ (fun x y => f x = .ok y) xs ys := by
  induction xs generalizing ys with
  | nil =>
    rw [List.mapM_nil, List.forall₂_nil_left_iff]
    exact ⟨fun h => by cases h; rfl, fun h => by rw [h]; rfl⟩
  | cons x xs ih =>
    rw [List.mapM_cons, bind_eq_ok]
    constructor
    · rintro ⟨y, hy, h⟩
      obtain ⟨ys', hys, h⟩ := bind_eq_ok.mp h
      cases h
      exact .cons hy (ih.mp hys)
    · rintro (_ | ⟨hy, hys⟩)
      exact ⟨_, hy, bind_eq_ok.mpr ⟨_, ih.mpr hys, rfl⟩⟩

/-- A collection that fails where another one succeeds fails as its elements do. -/
theorem mapM_or_error {P : ε → Prop} {f g : α → Except ε β} {xs : List α} {ys : List β}
    (hg : xs.mapM g = .ok ys)
    (h : ∀ x ∈ xs, ∀ y, g x = .ok y → f x = .ok y ∨ ∃ e, P e ∧ f x = .error e) :
    xs.mapM f = .ok ys ∨ ∃ e, P e ∧ xs.mapM f = .error e := by
  induction xs generalizing ys with
  | nil => exact .inl hg
  | cons x xs ih =>
    rw [List.mapM_cons] at hg
    obtain ⟨y, hy, hg⟩ := bind_eq_ok.mp hg
    obtain ⟨ys', hys, hg⟩ := bind_eq_ok.mp hg
    cases hg
    rw [List.mapM_cons]
    rcases h x (List.mem_cons_self ..) y hy with hok | ⟨e, he, herror⟩
    · rcases ih hys fun x' hx' => h x' (List.mem_cons_of_mem x hx') with hoks | ⟨e, he, herror⟩
      · exact .inl (bind_eq_ok.mpr ⟨y, hok, bind_eq_ok.mpr ⟨ys', hoks, rfl⟩⟩)
      · refine .inr ⟨e, he, ?_⟩
        rw [hok, herror]
        rfl
    · refine .inr ⟨e, he, ?_⟩
      rw [herror]
      rfl

/-- So does a loop. -/
theorem foldlM_or_error {P : ε → Prop} {f g : σ → α → Except ε σ} {xs : List α} {s t : σ}
    (hg : xs.foldlM g s = .ok t)
    (h : ∀ x ∈ xs, ∀ s u, g s x = .ok u → f s x = .ok u ∨ ∃ e, P e ∧ f s x = .error e) :
    xs.foldlM f s = .ok t ∨ ∃ e, P e ∧ xs.foldlM f s = .error e := by
  induction xs generalizing s with
  | nil => exact .inl hg
  | cons x xs ih =>
    rw [List.foldlM_cons] at hg ⊢
    obtain ⟨u, hu, hg⟩ := bind_eq_ok.mp hg
    rcases h x (List.mem_cons_self ..) s u hu with hok | ⟨e, he, herror⟩
    · rw [hok]
      exact ih hg fun x' hx' => h x' (List.mem_cons_of_mem x hx')
    · refine .inr ⟨e, he, ?_⟩
      rw [herror]
      rfl

theorem foldlM_cons_eq_ok {f : σ → α → Except ε σ} {a : α} {xs : List α} {s t : σ} :
    (a :: xs).foldlM f s = .ok t ↔ ∃ u, f s a = .ok u ∧ xs.foldlM f u = .ok t := by
  rw [List.foldlM_cons, bind_eq_ok]

theorem foldlM_append_eq_ok {f : σ → α → Except ε σ} {xs ys : List α} {s t : σ} :
    (xs ++ ys).foldlM f s = .ok t ↔ ∃ u, xs.foldlM f s = .ok u ∧ ys.foldlM f u = .ok t := by
  rw [List.foldlM_append, bind_eq_ok]

/-- Elements that change nothing may be left out. -/
theorem foldlM_filter {f : σ → α → Except ε σ} {p : α → Bool} (h : ∀ s a, p a = false → f s a = .ok s)
    (xs : List α) (s : σ) : (xs.filter p).foldlM f s = xs.foldlM f s := by
  induction xs generalizing s with
  | nil => rfl
  | cons a xs ih =>
    cases hp : p a with
    | true =>
      rw [List.filter_cons_of_pos hp, List.foldlM_cons, List.foldlM_cons]
      exact congrArg _ (funext ih)
    | false =>
      rw [List.filter_cons_of_neg (by simp [hp]), ih, List.foldlM_cons, h s a hp]
      rfl

/-- Elements that do the same may stand for one another. -/
theorem foldlM_map_congr {f : σ → α → Except ε σ} {g h : β → α} {xs : List β}
    (heq : ∀ x ∈ xs, ∀ s, f s (g x) = f s (h x)) (s : σ) :
    (xs.map g).foldlM f s = (xs.map h).foldlM f s := by
  induction xs generalizing s with
  | nil => rfl
  | cons x xs ih =>
    rw [List.map_cons, List.map_cons, List.foldlM_cons, List.foldlM_cons, heq x (List.mem_cons_self ..)]
    exact congrArg _ (funext fun t => ih (fun y hy => heq y (List.mem_cons_of_mem x hy)) t)

/-- A loop that succeeds has succeeded at every element. -/
theorem foldlM_mem {f : σ → α → Except ε σ} {xs : List α} {s t : σ} (h : xs.foldlM f s = .ok t) {x : α}
    (hx : x ∈ xs) : ∃ u v, f u x = .ok v := by
  obtain ⟨above, below, rfl⟩ := List.append_of_mem hx
  obtain ⟨u, -, h⟩ := foldlM_append_eq_ok.mp h
  obtain ⟨v, hv, -⟩ := foldlM_cons_eq_ok.mp h
  exact ⟨u, v, hv⟩

theorem bind_eq_error {x : Except ε α} {f : α → Except ε β} {e : ε} :
    x >>= f = .error e ↔ x = .error e ∨ ∃ a, x = .ok a ∧ f a = .error e := by
  cases x with
  | ok a =>
    show f a = .error e ↔ _
    simp
  | error e' =>
    show Except.error e' = .error e ↔ _
    simp

/-- A collection that fails has failed at one of its elements. -/
theorem mapM_eq_error {f : α → Except ε β} {xs : List α} {e : ε} (h : xs.mapM f = .error e) :
    ∃ x ∈ xs, f x = .error e := by
  induction xs with
  | nil => cases h
  | cons x xs ih =>
    rw [List.mapM_cons] at h
    rcases bind_eq_error.mp h with hx | ⟨y, -, h⟩
    · exact ⟨x, List.mem_cons_self .., hx⟩
    · rcases bind_eq_error.mp h with hxs | ⟨ys, -, h⟩
      · obtain ⟨x', hx', hfail⟩ := ih hxs
        exact ⟨x', List.mem_cons_of_mem x hx', hfail⟩
      · cases h

/-- A loop that fails has come to the element it fails at. -/
theorem foldlM_eq_error {f : σ → α → Except ε σ} {xs : List α} {s : σ} {e : ε} (h : xs.foldlM f s = .error e) :
    ∃ above x below u, xs = above ++ x :: below ∧ above.foldlM f s = .ok u ∧ f u x = .error e := by
  induction xs generalizing s with
  | nil => cases h
  | cons x xs ih =>
    rw [List.foldlM_cons] at h
    rcases bind_eq_error.mp h with hx | ⟨u, hu, h⟩
    · exact ⟨[], x, xs, s, rfl, rfl, hx⟩
    · obtain ⟨above, y, below, v, rfl, hv, hy⟩ := ih h
      exact ⟨x :: above, y, below, v, rfl, foldlM_cons_eq_ok.mpr ⟨u, hu, hv⟩, hy⟩

/-- The invariant of a loop, over the part of the list it has seen. -/
theorem foldlM_along {f : σ → α → Except ε σ} {I : List α → σ → Prop} (above : List α)
    (step : ∀ above s a t, I above s → f s a = .ok t → I (above ++ [a]) t) {xs : List α} {s t : σ}
    (h : xs.foldlM f s = .ok t) (hs : I above s) : I (above ++ xs) t := by
  induction xs generalizing above s with
  | nil =>
    cases h
    rwa [List.append_nil]
  | cons a xs ih =>
    obtain ⟨u, hu, h⟩ := foldlM_cons_eq_ok.mp h
    have := ih (above ++ [a]) h (step above s a u hs hu)
    rwa [List.append_assoc] at this

/-- The invariant of two loops over one list. -/
theorem foldlM_along₂ {f : σ → α → Except ε σ} {g : τ → α → Except ε τ} {I : List α → σ → τ → Prop}
    (above : List α)
    (step : ∀ above s t a s' t', I above s t → f s a = .ok s' → g t a = .ok t' → I (above ++ [a]) s' t')
    {xs : List α} {s s' : σ} {t t' : τ} (hf : xs.foldlM f s = .ok s') (hg : xs.foldlM g t = .ok t')
    (hst : I above s t) : I (above ++ xs) s' t' := by
  induction xs generalizing above s t with
  | nil =>
    cases hf
    cases hg
    rwa [List.append_nil]
  | cons a xs ih =>
    obtain ⟨u, hu, hf⟩ := foldlM_cons_eq_ok.mp hf
    obtain ⟨v, hv, hg⟩ := foldlM_cons_eq_ok.mp hg
    have := ih (above ++ [a]) hf hg (step above s t a u v hst hu hv)
    rwa [List.append_assoc] at this

/-- A loop that succeeds is followed by one that can follow each of its turns. -/
theorem foldlM_follow {f : σ → α → Except ε σ} {g : τ → α → Except ε τ} {R : σ → τ → Prop}
    (step : ∀ a s s' t, R s t → f s a = .ok s' → ∃ t', g t a = .ok t' ∧ R s' t') {xs : List α} {s s' : σ}
    {t : τ} (h : xs.foldlM f s = .ok s') (hst : R s t) : ∃ t', xs.foldlM g t = .ok t' ∧ R s' t' := by
  induction xs generalizing s t with
  | nil =>
    cases h
    exact ⟨t, rfl, hst⟩
  | cons a xs ih =>
    obtain ⟨u, hu, h⟩ := foldlM_cons_eq_ok.mp h
    obtain ⟨v, hv, huv⟩ := step a s u t hst hu
    obtain ⟨t', ht', hrest⟩ := ih h huv
    exact ⟨t', foldlM_cons_eq_ok.mpr ⟨v, hv, ht'⟩, hrest⟩

theorem forall₂_append_left {R : α → β → Prop} {as bs : List α} {ys : List β} (h : List.Forall₂ R (as ++ bs) ys) :
    ∃ us vs, ys = us ++ vs ∧ List.Forall₂ R as us ∧ List.Forall₂ R bs vs := by
  induction as generalizing ys with
  | nil => exact ⟨[], ys, rfl, .nil, h⟩
  | cons a as ih =>
    obtain ⟨y, _, hy, hrest, rfl⟩ := List.forall₂_cons_left_iff.mp h
    obtain ⟨us, vs, rfl, hus, hvs⟩ := ih hrest
    exact ⟨y :: us, vs, rfl, .cons hy hus, hvs⟩

/-! ### Two lists with elements in common -/

/-- Both lists have the same elements that meet `p`, and between two of them the loop does
the same in both. -/
structure SameBetween (p : α → Bool) (f : σ → α → σ) (xs ys : List α) : Prop where
  kept : ys.filter p = xs.filter p
  between : List.Forall₂ (fun us vs => ∀ s, vs.foldl f s = us.foldl f s) (xs.splitOnP p) (ys.splitOnP p)

namespace SameBetween
variable {p : α → Bool} {f : σ → α → σ} {xs ys : List α}

theorem nil : SameBetween p f [] [] := ⟨rfl, .cons (fun _ => rfl) .nil⟩

theorem forall₂_modifyHead {us vs : List (List α)} (g k : List α → List α)
    (h : List.Forall₂ (fun us vs => ∀ s, vs.foldl f s = us.foldl f s) us vs)
    (hgk : ∀ us vs, (∀ s, vs.foldl f s = us.foldl f s) → ∀ s, (k vs).foldl f s = (g us).foldl f s) :
    List.Forall₂ (fun us vs => ∀ s, vs.foldl f s = us.foldl f s) (us.modifyHead g) (vs.modifyHead k) := by
  cases h with
  | nil => exact .nil
  | cons hhead htail => exact .cons (hgk _ _ hhead) htail

/-- An element may be put before both. -/
theorem cons (h : SameBetween p f xs ys) (x : α) : SameBetween p f (x :: xs) (x :: ys) := by
  refine ⟨by rw [List.filter_cons, List.filter_cons, h.kept], ?_⟩
  rw [List.splitOnP_cons_eq_if_modifyHead, List.splitOnP_cons_eq_if_modifyHead]
  split
  · exact .cons (fun _ => rfl) h.between
  · exact forall₂_modifyHead _ _ h.between fun us vs hs s => hs (f s x)

theorem append_same (h : SameBetween p f xs ys) (us : List α) : SameBetween p f (us ++ xs) (us ++ ys) := by
  induction us with
  | nil => exact h
  | cons u us ih => exact ih.cons u

theorem splitOnP_append {us : List α} (hus : ∀ u ∈ us, p u = false) (xs : List α) :
    (us ++ xs).splitOnP p = (xs.splitOnP p).modifyHead (us ++ ·) := by
  induction us with
  | nil =>
    show xs.splitOnP p = _
    cases xs.splitOnP p <;> rfl
  | cons u us ih =>
    rw [List.cons_append, List.splitOnP_cons_eq_if_modifyHead, hus u (List.mem_cons_self ..),
      ih fun v hv => hus v (List.mem_cons_of_mem u hv)]
    cases xs.splitOnP p <;> rfl

/-- So may elements that do not meet `p`, if they do the same. -/
theorem append (h : SameBetween p f xs ys) {us vs : List α} (hus : ∀ u ∈ us, p u = false)
    (hvs : ∀ v ∈ vs, p v = false) (hsame : ∀ s, vs.foldl f s = us.foldl f s) :
    SameBetween p f (us ++ xs) (vs ++ ys) := by
  have hnone : ∀ {ws : List α}, (∀ w ∈ ws, p w = false) → ws.filter p = [] := fun hws =>
    List.filter_eq_nil_iff.mpr fun w hw => by simp [hws w hw]
  refine ⟨by rw [List.filter_append, List.filter_append, hnone hus, hnone hvs, h.kept], ?_⟩
  rw [splitOnP_append hus, splitOnP_append hvs]
  refine forall₂_modifyHead _ _ h.between fun ws zs hs s => ?_
  rw [List.foldl_append, List.foldl_append, hsame, hs]

end SameBetween

/-! ### What was written last -/

/-- A part of the state that some elements set, and others leave, is as the last one has set it. -/
theorem foldl_last {g : σ → β} {act : σ → α → σ} {f : α → Option β} {xs : List α}
    (h : ∀ s, ∀ a ∈ xs, g (act s a) = (f a).getD (g s)) (s : σ) :
    g (xs.foldl act s) = (xs.filterMap f).getLastD (g s) := by
  induction xs generalizing s with
  | nil => rfl
  | cons a xs ih =>
    have hrest := ih (fun s b hb => h s b (List.mem_cons_of_mem a hb)) (act s a)
    rw [List.foldl_cons, hrest, h s a (List.mem_cons_self ..)]
    cases hf : f a with
    | none => rw [List.filterMap_cons_none hf]; rfl
    | some b => rw [List.filterMap_cons_some hf, List.getLastD_cons]; rfl

end CustomIsaVm.Fold
