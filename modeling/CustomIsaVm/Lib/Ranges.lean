import Mathlib.Algebra.Order.Ring.Int
import Mathlib.Data.List.TakeWhile
import Mathlib.Tactic.Common

/-! Sorted lists of ranges.

A range is a pair of its start and its end, the end not included. A list of ranges
is `Canonical` when none is empty and each ends strictly before the next starts:
such a list is determined by the numbers it `Covers`. Taking numbers off the front
of a range (`carve`) and joining a range to its neighbours (`joinLeft`) keep lists
canonical. -/
namespace CustomIsaVm

abbrev Range := Nat × Nat

namespace Ranges

def Covers (rs : List Range) (i : Nat) : Prop := ∃ r ∈ rs, r.1 ≤ i ∧ i < r.2

structure Canonical (rs : List Range) : Prop where
  nonempty : ∀ r ∈ rs, r.1 < r.2
  gaps : rs.Pairwise fun r s => r.2 < s.1

/-! ### Composition -/

@[simp] theorem covers_nil (i : Nat) : ¬ Covers [] i := by simp [Covers]

@[simp] theorem covers_cons (r : Range) (rs : List Range) (i : Nat) :
    Covers (r :: rs) i ↔ (r.1 ≤ i ∧ i < r.2) ∨ Covers rs i := by
  simp [Covers]

@[simp] theorem covers_append (xs ys : List Range) (i : Nat) :
    Covers (xs ++ ys) i ↔ Covers xs i ∨ Covers ys i := by
  simp only [Covers, List.mem_append, or_and_right, exists_or]

theorem Canonical.nil : Canonical [] := ⟨by simp, .nil⟩

theorem canonical_append {xs ys : List Range} : Canonical (xs ++ ys) ↔
    Canonical xs ∧ Canonical ys ∧ ∀ x ∈ xs, ∀ y ∈ ys, x.2 < y.1 := by
  constructor
  · intro h
    obtain ⟨hx, hy, hxy⟩ := List.pairwise_append.mp h.gaps
    exact ⟨⟨fun r hr => h.nonempty r (List.mem_append_left ys hr), hx⟩,
      ⟨fun r hr => h.nonempty r (List.mem_append_right xs hr), hy⟩, hxy⟩
  · rintro ⟨hx, hy, hxy⟩
    refine ⟨fun r hr => ?_, List.pairwise_append.mpr ⟨hx.gaps, hy.gaps, hxy⟩⟩
    rcases List.mem_append.mp hr with hr | hr
    · exact hx.nonempty r hr
    · exact hy.nonempty r hr

theorem canonical_cons {r : Range} {rs : List Range} : Canonical (r :: rs) ↔
    r.1 < r.2 ∧ Canonical rs ∧ ∀ s ∈ rs, r.2 < s.1 := by
  constructor
  · intro h
    obtain ⟨hr, hrs⟩ := List.pairwise_cons.mp h.gaps
    exact ⟨h.nonempty r (List.mem_cons_self ..),
      ⟨fun s hs => h.nonempty s (List.mem_cons_of_mem r hs), hrs⟩, hr⟩
  · rintro ⟨hr, hrs, hgap⟩
    refine ⟨fun s hs => ?_, List.pairwise_cons.mpr ⟨hgap, hrs.gaps⟩⟩
    rcases List.mem_cons.mp hs with rfl | hs
    · exact hr
    · exact hrs.nonempty s hs

/-! ### Taking from the front of a range -/

/-- What is left of `r` without its first `n` numbers. -/
def carve (n : Nat) (r : Range) : List Range := if r.2 = r.1 + n then [] else [(r.1 + n, r.2)]

theorem mem_carve {n : Nat} {r s : Range} (h : s ∈ carve n r) (hn : r.1 + n ≤ r.2) :
    s = (r.1 + n, r.2) ∧ r.1 + n < r.2 := by
  unfold carve at h
  by_cases hall : r.2 = r.1 + n
  · rw [if_pos hall] at h
    cases h
  · rw [if_neg hall, List.mem_singleton] at h
    exact ⟨h, by omega⟩

theorem canonical_carve {xs ys : List Range} {r : Range} {n : Nat} (h : Canonical (xs ++ r :: ys))
    (hn : r.1 + n ≤ r.2) : Canonical (xs ++ (carve n r ++ ys)) := by
  obtain ⟨hxs, hrys, hcross⟩ := canonical_append.mp h
  obtain ⟨hr, hys, hgap⟩ := canonical_cons.mp hrys
  have hcarve : Canonical (carve n r) := by
    unfold carve
    by_cases hall : r.2 = r.1 + n
    · rw [if_pos hall]
      exact .nil
    · rw [if_neg hall]
      exact canonical_cons.mpr ⟨by simp only; omega, .nil, by simp⟩
  refine canonical_append.mpr ⟨hxs, canonical_append.mpr ⟨hcarve, hys, fun s hs y hy => ?_⟩, fun x hx s hs => ?_⟩
  · obtain ⟨rfl, -⟩ := mem_carve hs hn
    exact hgap y hy
  · rcases List.mem_append.mp hs with hs | hs
    · obtain ⟨rfl, -⟩ := mem_carve hs hn
      have := hcross x hx r (List.mem_cons_self ..)
      simp only
      omega
    · exact hcross x hx s (List.mem_cons_of_mem r hs)

/-- The numbers taken are no longer covered, and all others are as before. -/
theorem covers_carve {xs ys : List Range} {r : Range} {n : Nat} (h : Canonical (xs ++ r :: ys))
    (hn : r.1 + n ≤ r.2) (i : Nat) : Covers (xs ++ (carve n r ++ ys)) i ↔
      Covers (xs ++ r :: ys) i ∧ ¬ (r.1 ≤ i ∧ i < r.1 + n) := by
  obtain ⟨-, hrys, hcross⟩ := canonical_append.mp h
  obtain ⟨hr, -, hgap⟩ := canonical_cons.mp hrys
  have hcarve : Covers (carve n r) i ↔ r.1 + n ≤ i ∧ i < r.2 := by
    unfold carve
    by_cases hall : r.2 = r.1 + n
    · rw [if_pos hall]
      simp only [covers_nil, false_iff]
      omega
    · rw [if_neg hall]
      simp
  -- a range further left or right covers none of the numbers taken
  have hleft : Covers xs i → i < r.1 := by
    rintro ⟨x, hx, hi⟩
    have := hcross x hx r (List.mem_cons_self ..)
    omega
  have hright : Covers ys i → r.2 ≤ i := by
    rintro ⟨y, hy, hi⟩
    have := hgap y hy
    omega
  simp only [covers_append, covers_cons, hcarve]
  constructor
  · rintro (hx | hi | hy)
    · exact ⟨.inl hx, by have := hleft hx; omega⟩
    · exact ⟨.inr (.inl (by omega)), by omega⟩
    · exact ⟨.inr (.inr hy), by have := hright hy; omega⟩
  · rintro ⟨hx | hi | hy, hnot⟩
    · exact .inl hx
    · exact .inr (.inl (by omega))
    · exact .inr (.inr hy)

/-! ### Putting a range back -/

/-- `s` is put in front of `rs`, as one range with the first if they touch. -/
def joinRight (s : Range) : List Range → List Range
  | [] => [s]
  | r :: rs => if r.1 = s.2 then (s.1, r.2) :: rs else s :: r :: rs

theorem joinRight_touching {s r : Range} (rs : List Range) (h : r.1 = s.2) :
    joinRight s (r :: rs) = (s.1, r.2) :: rs := if_pos h

theorem joinRight_apart {s r : Range} (rs : List Range) (h : r.1 ≠ s.2) :
    joinRight s (r :: rs) = s :: r :: rs := if_neg h

/-- `s` is put between `xs` and `ys`, as one range with the neighbours it touches. -/
def joinLeft (s : Range) (xs ys : List Range) : List Range :=
  match xs.getLast? with
  | some r => if r.2 = s.1 then xs.dropLast ++ joinRight (r.1, s.2) ys else xs ++ joinRight s ys
  | none => joinRight s ys

@[simp] theorem joinLeft_nil (s : Range) (ys : List Range) : joinLeft s [] ys = joinRight s ys := rfl

theorem joinLeft_concat (s r : Range) (xs ys : List Range) : joinLeft s (xs ++ [r]) ys =
    if r.2 = s.1 then xs ++ joinRight (r.1, s.2) ys else xs ++ [r] ++ joinRight s ys := by
  simp [joinLeft]

theorem covers_joinRight {s : Range} {rs : List Range} (hs : s.1 < s.2) (hrs : Canonical rs) (i : Nat) :
    Covers (joinRight s rs) i ↔ (s.1 ≤ i ∧ i < s.2) ∨ Covers rs i := by
  cases rs with
  | nil => simp [joinRight]
  | cons r rs =>
    obtain ⟨hr, -, -⟩ := canonical_cons.mp hrs
    by_cases htouch : r.1 = s.2
    · rw [joinRight_touching rs htouch, covers_cons, covers_cons, ← or_assoc]
      refine or_congr_left ?_
      simp only
      omega
    · rw [joinRight_apart rs htouch, covers_cons]

/-- What follows stays behind `s`, and may be joined to it. -/
theorem canonical_joinRight {s : Range} {rs : List Range} (hs : s.1 < s.2) (hrs : Canonical rs)
    (hafter : ∀ r ∈ rs, s.2 ≤ r.1) :
    Canonical (joinRight s rs) ∧ ∀ r ∈ joinRight s rs, s.1 ≤ r.1 := by
  cases rs with
  | nil =>
    refine ⟨canonical_cons.mpr ⟨hs, .nil, by simp⟩, fun r hr => ?_⟩
    rw [List.mem_singleton.mp hr]
  | cons r rs =>
    obtain ⟨hr, hrs', hgap⟩ := canonical_cons.mp hrs
    have hfirst := hafter r (List.mem_cons_self ..)
    by_cases htouch : r.1 = s.2
    · rw [joinRight_touching rs htouch]
      refine ⟨canonical_cons.mpr ⟨by simp only; omega, hrs', hgap⟩, fun t ht => ?_⟩
      rcases List.mem_cons.mp ht with rfl | ht
      · exact Nat.le_refl _
      · have := hgap t ht
        omega
    · rw [joinRight_apart rs htouch]
      refine ⟨canonical_cons.mpr ⟨hs, hrs, fun t ht => ?_⟩, fun t ht => ?_⟩
      · rcases List.mem_cons.mp ht with rfl | ht
        · omega
        · have := hgap t ht
          omega
      · rcases List.mem_cons.mp ht with rfl | ht
        · exact Nat.le_refl _
        · have := hafter t ht
          omega

/-- `s` fits between `xs` and `ys`: nothing of it is covered, and `xs` are the ranges
that start below it. -/
structure Fits (s : Range) (xs ys : List Range) : Prop where
  nonempty : s.1 < s.2
  canonical : Canonical (xs ++ ys)
  below : ∀ x ∈ xs, x.1 < s.1
  above : ∀ y ∈ ys, s.1 ≤ y.1
  bare : ∀ i, s.1 ≤ i → i < s.2 → ¬ Covers (xs ++ ys) i

theorem Fits.ends {s : Range} {xs ys : List Range} (h : Fits s xs ys) :
    (∀ x ∈ xs, x.2 ≤ s.1) ∧ ∀ y ∈ ys, s.2 ≤ y.1 := by
  have hs := h.nonempty
  refine ⟨fun x hx => ?_, fun y hy => ?_⟩
  · have hbelow := h.below x hx
    by_contra hlt
    exact h.bare s.1 (Nat.le_refl _) hs ⟨x, List.mem_append_left ys hx, by omega⟩
  · have habove := h.above y hy
    have hpos := h.canonical.nonempty y (List.mem_append_right xs hy)
    by_contra hlt
    exact h.bare y.1 habove (by omega) ⟨y, List.mem_append_right xs hy, by omega⟩

/-- Joining covers the numbers of `s` besides those covered before. -/
theorem covers_joinLeft {s : Range} {xs ys : List Range} (h : Fits s xs ys) (i : Nat) :
    Covers (joinLeft s xs ys) i ↔ (s.1 ≤ i ∧ i < s.2) ∨ Covers (xs ++ ys) i := by
  have hs := h.nonempty
  obtain ⟨hxs, hys, -⟩ := canonical_append.mp h.canonical
  rcases List.eq_nil_or_concat xs with rfl | ⟨front, r, rfl⟩
  · exact covers_joinRight hs hys i
  · have hr := hxs.nonempty r (by simp)
    rw [List.concat_eq_append, joinLeft_concat]
    by_cases htouch : r.2 = s.1
    · rw [if_pos htouch, covers_append, covers_joinRight (by simp only; omega) hys]
      simp only [covers_append, covers_cons, covers_nil, or_false]
      have hjoin : r.1 ≤ i ∧ i < s.2 ↔ (s.1 ≤ i ∧ i < s.2) ∨ (r.1 ≤ i ∧ i < r.2) := by omega
      rw [hjoin]
      tauto
    · rw [if_neg htouch]
      simp only [covers_append, covers_joinRight hs hys]
      tauto

theorem canonical_joinLeft {s : Range} {xs ys : List Range} (h : Fits s xs ys) :
    Canonical (joinLeft s xs ys) := by
  have hs := h.nonempty
  obtain ⟨hbelow, habove⟩ := h.ends
  obtain ⟨hxs, hys, hcross⟩ := canonical_append.mp h.canonical
  obtain ⟨hright, hstart⟩ := canonical_joinRight hs hys habove
  rcases List.eq_nil_or_concat xs with rfl | ⟨front, r, rfl⟩
  · exact hright
  · rw [List.concat_eq_append] at hxs hbelow hcross
    obtain ⟨hfront, -, hgap⟩ := canonical_append.mp hxs
    have hr := hxs.nonempty r (by simp)
    have hend := hbelow r (by simp)
    have hlast : ∀ x ∈ front, x.2 < r.1 := fun x hx => hgap x hx r (List.mem_singleton_self r)
    rw [List.concat_eq_append, joinLeft_concat]
    by_cases htouch : r.2 = s.1
    · rw [if_pos htouch]
      obtain ⟨hjoined, hfrom⟩ := canonical_joinRight (s := (r.1, s.2)) (by simp only; omega) hys habove
      refine canonical_append.mpr ⟨hfront, hjoined, fun x hx y hy => ?_⟩
      exact Nat.lt_of_lt_of_le (hlast x hx) (hfrom y hy)
    · rw [if_neg htouch]
      refine canonical_append.mpr ⟨hxs, hright, fun x hx y hy => ?_⟩
      have hy := hstart y hy
      rcases List.mem_append.mp hx with hx | hx
      · have := hlast x hx
        omega
      · rw [List.mem_singleton.mp hx]
        omega

/-! ### Canonical lists and what they cover -/

theorem Canonical.tail {r : Range} {rs : List Range} (h : Canonical (r :: rs)) : Canonical rs :=
  (canonical_cons.mp h).2.1

/-- A tail covers what lies behind the end of the first range. -/
theorem Canonical.covers_tail {r : Range} {rs : List Range} (h : Canonical (r :: rs)) (i : Nat) :
    Covers rs i ↔ Covers (r :: rs) i ∧ r.2 < i := by
  obtain ⟨hr, -, hgap⟩ := canonical_cons.mp h
  constructor
  · rintro ⟨s, hs, hi⟩
    have := hgap s hs
    exact ⟨⟨s, List.mem_cons_of_mem r hs, hi⟩, by omega⟩
  · rintro ⟨hi, hlt⟩
    exact ((covers_cons r rs i).mp hi).resolve_left fun hin => by omega

theorem Canonical.start_le {r : Range} {rs : List Range} (h : Canonical (r :: rs)) {i : Nat}
    (hi : Covers (r :: rs) i) : r.1 ≤ i := by
  rcases (covers_cons r rs i).mp hi with hin | hin
  · exact hin.1
  · have := ((h.covers_tail i).mp hin).2
    have := (canonical_cons.mp h).1
    omega

/-- The end of a range is not covered: the next range starts behind it. -/
theorem Canonical.end_bare {r : Range} {rs : List Range} (h : Canonical (r :: rs)) :
    ¬ Covers (r :: rs) r.2 := by
  rw [covers_cons, h.covers_tail]
  omega

/-- A range that starts no later than the first one of a list ends no later, if that
list covers it. -/
theorem Canonical.end_le {r s : Range} {rs ss : List Range} (hr : Canonical (r :: rs))
    (hsame : ∀ i, Covers (r :: rs) i ↔ Covers (s :: ss) i)
    (hstart : s.1 ≤ r.1) : s.2 ≤ r.2 := by
  by_contra hlt
  have hpos := (canonical_cons.mp hr).1
  exact hr.end_bare ((hsame r.2).mpr ((covers_cons s ss r.2).mpr (.inl ⟨by omega, by omega⟩)))

/-- **A canonical list is determined by what it covers.** -/
theorem Canonical.ext {rs ss : List Range} (hr : Canonical rs) (hs : Canonical ss)
    (hsame : ∀ i, Covers rs i ↔ Covers ss i) : rs = ss := by
  induction rs generalizing ss with
  | nil =>
    cases ss with
    | nil => rfl
    | cons s ss =>
      have hpos := (canonical_cons.mp hs).1
      exact (covers_nil s.1 ((hsame s.1).mpr ((covers_cons s ss s.1).mpr (.inl ⟨by omega, hpos⟩)))).elim
  | cons r rs ih =>
    have hrpos := (canonical_cons.mp hr).1
    cases ss with
    | nil =>
      exact (covers_nil r.1 ((hsame r.1).mp ((covers_cons r rs r.1).mpr (.inl ⟨by omega, hrpos⟩)))).elim
    | cons s ss =>
      have hspos := (canonical_cons.mp hs).1
      have hrs : r.1 ≤ s.1 :=
        hr.start_le ((hsame s.1).mpr ((covers_cons s ss s.1).mpr (.inl ⟨by omega, hspos⟩)))
      have hsr : s.1 ≤ r.1 :=
        hs.start_le ((hsame r.1).mp ((covers_cons r rs r.1).mpr (.inl ⟨by omega, hrpos⟩)))
      have hends : r.2 = s.2 :=
        Nat.le_antisymm (hs.end_le (fun i => (hsame i).symm) hrs) (hr.end_le hsame hsr)
      have hhead : r = s := Prod.ext (Nat.le_antisymm hrs hsr) hends
      subst hhead
      refine congrArg (r :: ·) (ih hr.tail hs.tail fun i => ?_)
      rw [hr.covers_tail, hs.covers_tail, hsame]

/-- Consecutive numbers that are all covered lie in one range. -/
theorem Canonical.run {rs : List Range} (h : Canonical rs) {a n : Nat} (hn : 0 < n)
    (hcovers : ∀ i, a ≤ i → i < a + n → Covers rs i) : ∃ r ∈ rs, r.1 ≤ a ∧ a + n ≤ r.2 := by
  induction rs with
  | nil => exact (covers_nil a (hcovers a (Nat.le_refl a) (by omega))).elim
  | cons r rs ih =>
    have hfirst := hcovers a (Nat.le_refl a) (by omega)
    have hstart := h.start_le hfirst
    by_cases hin : a ≤ r.2
    · refine ⟨r, List.mem_cons_self .., hstart, ?_⟩
      by_contra hlt
      exact h.end_bare (hcovers r.2 hin (by omega))
    · obtain ⟨s, hs, hfit⟩ := ih h.tail fun i hi hlt => (h.covers_tail i).mpr ⟨hcovers i hi hlt, by omega⟩
      exact ⟨s, List.mem_cons_of_mem r hs, hfit⟩

/-- A range of a list whose numbers are all below `limit` ends there at the latest. -/
theorem Canonical.bounded {rs : List Range} (h : Canonical rs) {limit : Nat}
    (hlimit : ∀ i, Covers rs i → i < limit) : ∀ r ∈ rs, r.2 ≤ limit := by
  intro r hr
  have hpos := h.nonempty r hr
  have := hlimit (r.2 - 1) ⟨r, hr, by omega, by omega⟩
  omega

/-- Behind the ranges that start below `n` there are only ranges that do not. -/
theorem Canonical.above {rs : List Range} (h : Canonical rs) (n : Nat) :
    ∀ r ∈ rs.dropWhile (fun r => decide (r.1 < n)), n ≤ r.1 := by
  induction rs with
  | nil => simp
  | cons r rs ih =>
    obtain ⟨hr, hrs, hgap⟩ := canonical_cons.mp h
    by_cases hlt : r.1 < n
    · rw [List.dropWhile_cons_of_pos (by simpa using hlt)]
      exact ih hrs
    · rw [List.dropWhile_cons_of_neg (by simpa using hlt)]
      intro s hs
      rcases List.mem_cons.mp hs with rfl | hs
      · omega
      · have := hgap s hs
        omega

end Ranges
end CustomIsaVm
