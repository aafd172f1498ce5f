import Mathlib.Algebra.Order.Ring.Int
import Mathlib.Data.List.Basic
import Mathlib.Data.List.Chain
import Mathlib.Tactic.Common

/-! A heap as a row of blocks.

Each block has a header of `hdr` cells and a payload behind it; a block is owned or
free, and the next block starts where its payload ends. `allocate` takes the first
free block that is large enough and splits it where more than a header would be
left; `coalesce` merges neighbours that are both free. Both keep the length of the
row and leave every other owned block where it is; a row without free neighbours
stays one. -/
namespace CustomIsaVm.Blocks

structure Block where
  size : Nat
  owned : Bool
  deriving DecidableEq, Repr

variable (hdr : Nat)

/-- The cells a row of blocks takes. -/
def span (bs : List Block) : Nat := (bs.map fun b => hdr + b.size).sum

/-- What becomes of a free block out of which `n` cells are handed out. -/
def carve (n : Nat) (b : Block) : List Block :=
  if n + hdr < b.size then [⟨n, true⟩, ⟨b.size - hdr - n, false⟩] else [⟨b.size, true⟩]

/-- A block that can serve a request for `n` cells. -/
def Serves (n : Nat) (b : Block) : Prop := b.owned = false ∧ n ≤ b.size

instance (n : Nat) (b : Block) : Decidable (Serves n b) := by
  unfold Serves
  infer_instance

/-- The first block that can serve is carved. -/
def allocate (n : Nat) : List Block → Option (List Block)
  | [] => none
  | b :: rest => if Serves n b then some (carve hdr n b ++ rest) else (allocate n rest).map (b :: ·)

/-- `b` absorbs the free blocks behind it, if it is free; then the next block does. -/
def absorb (b : Block) : List Block → List Block
  | [] => [b]
  | c :: rest =>
    if b.owned = false ∧ c.owned = false then absorb ⟨b.size + hdr + c.size, false⟩ rest
    else b :: absorb c rest

def coalesce : List Block → List Block
  | [] => []
  | b :: rest => absorb hdr b rest

/-- No two neighbours are both free. -/
def Separated (bs : List Block) : Prop := bs.IsChain fun b c => b.owned = true ∨ c.owned = true

/-- The last block has a payload. -/
def Ends (bs : List Block) : Prop := ∀ b ∈ bs.getLast?, 1 ≤ b.size

/-- The blocks, each with the place of its header, in a row that starts at `o`. -/
def placed (o : Nat) : List Block → List (Nat × Block)
  | [] => []
  | b :: bs => (o, b) :: placed (o + hdr + b.size) bs

variable {hdr}

@[simp] theorem span_nil : span hdr [] = 0 := rfl

@[simp] theorem span_cons (b : Block) (bs : List Block) :
    span hdr (b :: bs) = hdr + b.size + span hdr bs := by
  simp [span]

@[simp] theorem span_append (as bs : List Block) : span hdr (as ++ bs) = span hdr as + span hdr bs := by
  simp [span]

/-! ### Allocation -/

/-- An allocation happens at the first block that can serve. -/
theorem allocate_some {n : Nat} {bs bs' : List Block} (h : allocate hdr n bs = some bs') :
    ∃ front b back, bs = front ++ b :: back ∧ (∀ c ∈ front, ¬ Serves n c) ∧ Serves n b ∧
      bs' = front ++ (carve hdr n b ++ back) := by
  induction bs generalizing bs' with
  | nil => cases h
  | cons c rest ih =>
    rw [allocate] at h
    split at h
    · cases h
      exact ⟨[], c, rest, rfl, by simp, ‹_›, rfl⟩
    · rw [Option.map_eq_some_iff] at h
      obtain ⟨rest', hrest, rfl⟩ := h
      obtain ⟨front, b, back, rfl, hfront, hb, rfl⟩ := ih hrest
      refine ⟨c :: front, b, back, rfl, fun d hd => ?_, hb, rfl⟩
      rcases List.mem_cons.mp hd with rfl | hd
      · assumption
      · exact hfront d hd

theorem allocate_append {n : Nat} {front back : List Block} {b : Block}
    (hfront : ∀ c ∈ front, ¬ Serves n c) (hb : Serves n b) :
    allocate hdr n (front ++ b :: back) = some (front ++ (carve hdr n b ++ back)) := by
  induction front with
  | nil => exact if_pos hb
  | cons c front ih =>
    rw [List.cons_append, allocate, if_neg (hfront c (List.mem_cons_self ..)),
      ih fun d hd => hfront d (List.mem_cons_of_mem c hd)]
    rfl

theorem allocate_none {n : Nat} {bs : List Block} (h : allocate hdr n bs = none) :
    ∀ b ∈ bs, ¬ Serves n b := by
  induction bs with
  | nil => simp
  | cons c rest ih =>
    rw [allocate] at h
    split at h
    · cases h
    · intro d hd
      rw [Option.map_eq_none_iff] at h
      rcases List.mem_cons.mp hd with rfl | hd
      · assumption
      · exact ih h d hd

theorem span_carve {n : Nat} {b : Block} : span hdr (carve hdr n b) = hdr + b.size := by
  unfold carve
  split
  · simp only [span_cons, span_nil]
    omega
  · simp

/-- What is carved: an owned block alone, or with the free rest behind it. -/
theorem carve_cases (hdr n : Nat) (b : Block) : carve hdr n b = [⟨b.size, true⟩] ∨
    n + hdr < b.size ∧ carve hdr n b = [⟨n, true⟩, ⟨b.size - hdr - n, false⟩] := by
  unfold carve
  split
  · exact .inr ⟨‹_›, rfl⟩
  · exact .inl rfl

/-- The first block carved is the owned one. -/
theorem carve_head (hdr n : Nat) (b : Block) : ∃ c rest, carve hdr n b = c :: rest ∧ c.owned = true := by
  rcases carve_cases hdr n b with hc | ⟨_, hc⟩
  · exact ⟨_, _, hc, rfl⟩
  · exact ⟨_, _, hc, rfl⟩

theorem separated_append_owned {front : List Block} {b c : Block} (h : Separated (front ++ [b]))
    (hc : c.owned = true) : Separated (front ++ [c]) := by
  rw [Separated, List.isChain_append] at h ⊢
  refine ⟨h.1, List.isChain_singleton _, fun x _ y hy => ?_⟩
  simp only [List.head?_cons, Option.mem_def, Option.some.injEq] at hy
  exact .inr (hy ▸ hc)

/-- An owned block may stand anywhere. -/
theorem separated_cons_owned {b : Block} {back : List Block} (h : Separated back)
    (hb : b.owned = true) : Separated (b :: back) := by
  cases back with
  | nil => exact List.isChain_singleton _
  | cons c back => exact List.isChain_cons_cons.mpr ⟨.inl hb, h⟩

theorem separated_allocate {n : Nat} {bs bs' : List Block} (h : allocate hdr n bs = some bs')
    (hs : Separated bs) : Separated bs' := by
  obtain ⟨front, b, back, rfl, _, hb, rfl⟩ := allocate_some h
  obtain ⟨hfront, hback⟩ := List.isChain_split.mp hs
  rcases carve_cases hdr n b with hc | ⟨_, hc⟩ <;> rw [hc]
  · refine List.isChain_split.mpr ⟨separated_append_owned hfront rfl, ?_⟩
    exact separated_cons_owned hback.tail rfl
  · refine List.isChain_split.mpr ⟨separated_append_owned hfront rfl, ?_⟩
    refine separated_cons_owned ?_ rfl
    -- What is left is free like the block was, and its neighbour is the block's.
    cases back with
    | nil => exact List.isChain_singleton _
    | cons c back =>
      obtain ⟨hbc, hback⟩ := List.isChain_cons_cons.mp hback
      exact List.isChain_cons_cons.mpr ⟨.inr (hbc.resolve_left (by rw [hb.1]; decide)), hback⟩

theorem span_allocate {n : Nat} {bs bs' : List Block} (h : allocate hdr n bs = some bs') :
    span hdr bs' = span hdr bs := by
  obtain ⟨front, b, back, rfl, _, _, rfl⟩ := allocate_some h
  simp only [span_append, span_cons, span_carve]

theorem ends_append {front back : List Block} {b : Block} (h : Ends (front ++ b :: back)) :
    Ends (b :: back) := by
  intro c hc
  exact h c (by rw [List.getLast?_append, hc]; rfl)

theorem ends_of_append {front back : List Block} (hne : back ≠ []) (h : Ends back) :
    Ends (front ++ back) := by
  intro c hc
  rw [List.getLast?_append, List.getLast?_eq_some_getLast hne] at hc
  exact h c (by rw [List.getLast?_eq_some_getLast hne]; exact hc)

theorem ends_cons {b : Block} {back : List Block} (hne : back ≠ []) : Ends (b :: back) ↔ Ends back := by
  rw [show b :: back = [b] ++ back from rfl]
  refine ⟨fun h => ?_, ends_of_append hne⟩
  obtain ⟨c, back, rfl⟩ := List.exists_cons_of_ne_nil hne
  exact ends_append h

/-- Who owns a block does not matter. -/
theorem ends_status {front back : List Block} {b c : Block} (h : Ends (front ++ b :: back))
    (hsize : c.size = b.size) : Ends (front ++ c :: back) := by
  refine ends_of_append (by simp) ?_
  have hb := ends_append h
  cases back with
  | nil =>
    intro d hd
    cases hd
    exact hsize ▸ hb b rfl
  | cons d back => exact (ends_cons (by simp)).mpr ((ends_cons (by simp)).mp hb)

theorem ends_allocate {n : Nat} {bs bs' : List Block} (h : allocate hdr n bs = some bs')
    (he : Ends bs) : Ends bs' := by
  obtain ⟨front, b, back, rfl, _, _, rfl⟩ := allocate_some h
  have hb := ends_append he
  refine ends_of_append (by rcases carve_cases hdr n b with hc | ⟨_, hc⟩ <;> simp [hc]) ?_
  cases back with
  | nil =>
    have hsize : 1 ≤ b.size := hb b rfl
    rw [List.append_nil]
    rcases carve_cases hdr n b with hc | ⟨hlt, hc⟩ <;> rw [hc]
    · intro c hc
      cases hc
      exact hsize
    · intro c hc
      cases hc
      show 1 ≤ b.size - hdr - n
      omega
  | cons c back => exact ends_of_append (by simp) ((ends_cons (by simp)).mp hb)

/-! ### Coalescing -/

theorem span_absorb (b : Block) (rest : List Block) :
    span hdr (absorb hdr b rest) = hdr + b.size + span hdr rest := by
  induction rest generalizing b with
  | nil => simp [absorb]
  | cons c rest ih =>
    rw [absorb]
    split
    · rw [ih, span_cons]
      dsimp only
      omega
    · rw [span_cons, ih, span_cons]

theorem span_coalesce (bs : List Block) : span hdr (coalesce hdr bs) = span hdr bs := by
  cases bs with
  | nil => rfl
  | cons b rest => rw [coalesce, span_absorb, span_cons]

/-- The first block that absorbing leaves is owned if the block was. -/
theorem absorb_cons (hdr : Nat) (b : Block) (rest : List Block) :
    ∃ size rest', absorb hdr b rest = ⟨size, b.owned⟩ :: rest' := by
  induction rest generalizing b with
  | nil => exact ⟨b.size, [], rfl⟩
  | cons c rest ih =>
    rw [absorb]
    split
    · rename_i hfree
      obtain ⟨size, rest', h⟩ := ih ⟨b.size + hdr + c.size, false⟩
      exact ⟨size, rest', by rw [h, hfree.1]⟩
    · exact ⟨b.size, _, rfl⟩

/-- After coalescing no two neighbours are free, whatever there was before. -/
theorem separated_absorb (b : Block) (rest : List Block) : Separated (absorb hdr b rest) := by
  induction rest generalizing b with
  | nil => exact List.isChain_singleton _
  | cons c rest ih =>
    rw [absorb]
    split
    · exact ih _
    · rename_i hfree
      obtain ⟨size, rest', h⟩ := absorb_cons hdr c rest
      have hsep := ih c
      rw [h] at hsep ⊢
      refine List.isChain_cons_cons.mpr ⟨?_, hsep⟩
      cases hb : b.owned
      · cases hc : c.owned
        · exact absurd ⟨hb, hc⟩ hfree
        · exact .inr rfl
      · exact .inl rfl

theorem separated_coalesce (bs : List Block) : Separated (coalesce hdr bs) := by
  cases bs with
  | nil => exact List.isChain_nil
  | cons b rest => exact separated_absorb b rest

theorem ends_absorb {b : Block} {rest : List Block} (h : Ends (b :: rest)) :
    Ends (absorb hdr b rest) := by
  induction rest generalizing b with
  | nil => exact h
  | cons c rest ih =>
    have hc : Ends (c :: rest) := (ends_cons (by simp)).mp h
    rw [absorb]
    split
    · refine ih ?_
      cases rest with
      | nil =>
        intro d hd
        cases hd
        have := hc c rfl
        show 1 ≤ b.size + hdr + c.size
        omega
      | cons d rest => exact (ends_cons (by simp)).mpr ((ends_cons (by simp)).mp hc)
    · obtain ⟨size, rest', heq⟩ := absorb_cons hdr c rest
      exact (ends_cons (by rw [heq]; simp)).mpr (ih hc)

theorem ends_coalesce {bs : List Block} (h : Ends bs) : Ends (coalesce hdr bs) := by
  cases bs with
  | nil => exact h
  | cons b rest => exact ends_absorb h

/-- A separated row is left as it is. -/
theorem absorb_of_separated {b : Block} {rest : List Block} (h : Separated (b :: rest)) :
    absorb hdr b rest = b :: rest := by
  induction rest generalizing b with
  | nil => rfl
  | cons c rest ih =>
    obtain ⟨hbc, hrest⟩ := List.isChain_cons_cons.mp h
    rw [absorb, if_neg, ih hrest]
    rintro ⟨hb, hc⟩
    rw [hb, hc] at hbc
    simp at hbc

/-! ### Where the blocks are -/

@[simp] theorem placed_nil (o : Nat) : placed hdr o [] = [] := rfl

@[simp] theorem placed_cons (o : Nat) (b : Block) (bs : List Block) :
    placed hdr o (b :: bs) = (o, b) :: placed hdr (o + hdr + b.size) bs := rfl

theorem placed_append (o : Nat) (as bs : List Block) :
    placed hdr o (as ++ bs) = placed hdr o as ++ placed hdr (o + span hdr as) bs := by
  induction as generalizing o with
  | nil => simp
  | cons a as ih =>
    rw [List.cons_append, placed_cons, placed_cons, ih, span_cons, List.cons_append,
      show o + hdr + a.size + span hdr as = o + (hdr + a.size + span hdr as) by omega]

/-- A block of a row, with what is in front of it and behind it. -/
theorem mem_placed {o : Nat} {bs : List Block} {p : Nat} {b : Block} :
    (p, b) ∈ placed hdr o bs ↔ ∃ front back, bs = front ++ b :: back ∧ p = o + span hdr front := by
  constructor
  · intro h
    induction bs generalizing o with
    | nil => cases h
    | cons c bs ih =>
      rw [placed_cons, List.mem_cons] at h
      rcases h with h | h
      · cases h
        exact ⟨[], bs, rfl, rfl⟩
      · obtain ⟨front, back, rfl, rfl⟩ := ih h
        exact ⟨c :: front, back, rfl, by rw [span_cons]; omega⟩
  · rintro ⟨front, back, rfl, rfl⟩
    rw [placed_append, placed_cons]
    exact List.mem_append_right _ (List.mem_cons_self ..)

/-- Every header starts early enough to have something behind it in the row. -/
theorem placed_lt {o p : Nat} {bs : List Block} {b : Block} (he : Ends bs)
    (h : (p, b) ∈ placed hdr o bs) : p + hdr < o + span hdr bs := by
  obtain ⟨front, back, rfl, rfl⟩ := mem_placed.mp h
  have hb := ends_append he
  simp only [span_append, span_cons]
  have hpos : 1 ≤ b.size + span hdr back := by
    cases hback : back.getLast? with
    | none =>
      rw [List.getLast?_eq_none_iff] at hback
      subst hback
      exact (hb b rfl).trans (Nat.le_add_right _ _)
    | some c =>
      obtain ⟨init, rfl⟩ := List.getLast?_eq_some_iff.mp hback
      have hc : 1 ≤ c.size := hb c (by rw [← List.cons_append]; exact List.getLast?_concat)
      simp only [span_append, span_cons]
      omega
  omega

theorem placed_end {o p : Nat} {bs : List Block} {b : Block} (h : (p, b) ∈ placed hdr o bs) :
    o ≤ p ∧ p + hdr + b.size ≤ o + span hdr bs := by
  obtain ⟨front, back, rfl, rfl⟩ := mem_placed.mp h
  simp only [span_append, span_cons]
  omega

/-- Two blocks of a row are the same or do not overlap. -/
theorem placed_apart {o p q : Nat} {bs : List Block} {b c : Block} (hb : (p, b) ∈ placed hdr o bs)
    (hc : (q, c) ∈ placed hdr o bs) :
    (p, b) = (q, c) ∨ p + hdr + b.size ≤ q ∨ q + hdr + c.size ≤ p := by
  induction bs generalizing o with
  | nil => cases hb
  | cons d bs ih =>
    rw [placed_cons, List.mem_cons] at hb hc
    rcases hb with hb | hb <;> rcases hc with hc | hc
    · exact .inl (hb.trans hc.symm)
    · cases hb
      exact .inr (.inl (placed_end hc).1)
    · cases hc
      exact .inr (.inr (placed_end hb).1)
    · exact ih hb hc

/-- **Allocation leaves the other owned blocks where they are**, and adds one. -/
theorem owned_allocate {o n p : Nat} {front back : List Block} {b c : Block} (hb : b.owned = false) :
    ((p, c) ∈ placed hdr o (front ++ (carve hdr n b ++ back)) ∧ c.owned = true) ↔
      ((p, c) ∈ placed hdr o (front ++ b :: back) ∧ c.owned = true) ∨
        (p = o + span hdr front ∧ (carve hdr n b).head? = some c) := by
  simp only [placed_append, span_carve, placed_cons, List.mem_append, List.mem_cons, Prod.mk.injEq]
  rw [show o + span hdr front + (hdr + b.size) = o + span hdr front + hdr + b.size by omega]
  rcases carve_cases hdr n b with hc | ⟨_, hc⟩ <;>
    simp only [hc, placed_cons, placed_nil, List.mem_cons, Prod.mk.injEq, List.not_mem_nil, or_false,
      List.head?_cons, Option.some.injEq] <;>
    constructor <;> rintro h <;> grind

/-- **Coalescing leaves the owned blocks where they are.** -/
theorem owned_absorb {o p : Nat} {b c : Block} {rest : List Block} :
    ((p, c) ∈ placed hdr o (absorb hdr b rest) ∧ c.owned = true) ↔
      ((p, c) ∈ placed hdr o (b :: rest) ∧ c.owned = true) := by
  induction rest generalizing b o with
  | nil => rfl
  | cons d rest ih =>
    rw [absorb]
    split
    · rename_i hfree
      rw [ih]
      simp only [placed_cons, List.mem_cons, Prod.mk.injEq]
      rw [show o + hdr + (b.size + hdr + d.size) = o + hdr + b.size + hdr + d.size by omega]
      grind
    · rw [placed_cons, placed_cons, List.mem_cons, List.mem_cons]
      have := ih (b := d) (o := o + hdr + b.size)
      grind

theorem owned_coalesce {o p : Nat} {c : Block} {bs : List Block} :
    ((p, c) ∈ placed hdr o (coalesce hdr bs) ∧ c.owned = true) ↔
      ((p, c) ∈ placed hdr o bs ∧ c.owned = true) := by
  cases bs with
  | nil => rfl
  | cons b rest => exact owned_absorb

/-! ### A row and its owned blocks -/

/-- Only the first block is at the start of a row. -/
theorem placed_start (hpos : 0 < hdr) {o : Nat} {b c : Block} {bs : List Block}
    (h : (o, c) ∈ placed hdr o (b :: bs)) : c = b := by
  rcases List.mem_cons.mp h with heq | hmem
  · exact (Prod.mk.inj heq).2
  · have := (placed_end hmem).1
    omega

/-- The blocks behind the first. -/
theorem mem_placed_tail (hpos : 0 < hdr) {o p : Nat} {b c : Block} {bs : List Block} :
    (p, c) ∈ placed hdr (o + hdr + b.size) bs ↔ (p, c) ∈ placed hdr o (b :: bs) ∧ p ≠ o := by
  constructor
  · intro h
    have := (placed_end h).1
    exact ⟨List.mem_cons_of_mem _ h, by omega⟩
  · rintro ⟨h, hne⟩
    exact (List.mem_cons.mp h).resolve_left fun heq => hne (Prod.mk.inj heq).1

/-- Two rows from `o` with the same owned blocks. -/
def SameOwned (hdr o : Nat) (bs cs : List Block) : Prop :=
  ∀ p c, c.owned = true → ((p, c) ∈ placed hdr o bs ↔ (p, c) ∈ placed hdr o cs)

theorem SameOwned.symm {o : Nat} {bs cs : List Block} (h : SameOwned hdr o bs cs) : SameOwned hdr o cs bs :=
  fun p c hc => (h p c hc).symm

theorem SameOwned.tail (hpos : 0 < hdr) {o : Nat} {b c : Block} {bs cs : List Block}
    (h : SameOwned hdr o (b :: bs) (c :: cs)) (hsize : b.size = c.size) :
    SameOwned hdr (o + hdr + b.size) bs cs := by
  intro p d hd
  have htail : (p, d) ∈ placed hdr (o + hdr + c.size) cs ↔ (p, d) ∈ placed hdr o (c :: cs) ∧ p ≠ o :=
    mem_placed_tail hpos
  rw [← hsize] at htail
  rw [mem_placed_tail hpos, htail, h p d hd]

/-- A free block at the front ends no later than one of the same row with no free
neighbours: what follows it is owned. -/
theorem SameOwned.front_le (hpos : 0 < hdr) {o : Nat} {b c : Block} {bs cs : List Block}
    (h : SameOwned hdr o (b :: bs) (c :: cs)) (hspan : span hdr (b :: bs) = span hdr (c :: cs))
    (hs : Separated (b :: bs)) (hb : b.owned = false) : c.size ≤ b.size := by
  cases bs with
  | nil =>
    rw [span_cons, span_cons, span_nil] at hspan
    omega
  | cons e es =>
    have he : e.owned = true := by
      have := (List.isChain_cons_cons.mp hs).1
      rw [hb] at this
      simpa using this
    have hplace : (o + hdr + b.size, e) ∈ placed hdr o (b :: e :: es) :=
      List.mem_cons_of_mem _ (List.mem_cons_self ..)
    have hmem := (h _ e he).mp hplace
    have hbehind := (placed_end ((mem_placed_tail hpos).mpr ⟨hmem, by omega⟩)).1
    omega

/-- **A row without free neighbours is determined by its owned blocks and its length.** -/
theorem SameOwned.eq (hpos : 0 < hdr) {o : Nat} {bs cs : List Block} (h : SameOwned hdr o bs cs)
    (hspan : span hdr bs = span hdr cs) (hb : Separated bs) (hc : Separated cs) : bs = cs := by
  induction bs generalizing o cs with
  | nil =>
    cases cs with
    | nil => rfl
    | cons c cs =>
      rw [span_nil, span_cons] at hspan
      omega
  | cons b bs ih =>
    cases cs with
    | nil =>
      rw [span_nil, span_cons] at hspan
      omega
    | cons c cs =>
      have hfirst : b = c := by
        by_cases hbo : b.owned = true
        · exact placed_start hpos ((h o b hbo).mp (List.mem_cons_self ..))
        · by_cases hco : c.owned = true
          · exact (placed_start hpos ((h o c hco).mpr (List.mem_cons_self ..))).symm
          · -- two free blocks: each ends where the next owned block starts, or the row ends
            have hbf : b.owned = false := by simpa using hbo
            have hcf : c.owned = false := by simpa using hco
            have hle := h.front_le hpos hspan hb hbf
            have hge := h.symm.front_le hpos hspan.symm hc hcf
            cases b
            cases c
            simp_all only [Block.mk.injEq, and_true]
            exact Nat.le_antisymm hge hle
      subst hfirst
      rw [span_cons, span_cons] at hspan
      rw [ih (h.tail hpos rfl) (by omega) hb.tail hc.tail]

/-- Marking a block as free takes it, and no other, out of the owned ones. -/
theorem owned_freed (hpos : 0 < hdr) {o p : Nat} {front back : List Block} {b c : Block} :
    ((p, c) ∈ placed hdr o (coalesce hdr (front ++ ⟨b.size, false⟩ :: back)) ∧ c.owned = true) ↔
      ((p, c) ∈ placed hdr o (front ++ b :: back) ∧ c.owned = true) ∧ p ≠ o + span hdr front := by
  rw [owned_coalesce]
  simp only [placed_append, placed_cons, List.mem_append, List.mem_cons, Prod.mk.injEq]
  constructor
  · rintro ⟨hfront | ⟨rfl, rfl⟩ | hback, howned⟩
    · have := (placed_end hfront).2
      exact ⟨⟨.inl hfront, howned⟩, by omega⟩
    · cases howned
    · have := (placed_end hback).1
      exact ⟨⟨.inr (.inr hback), howned⟩, by omega⟩
  · rintro ⟨⟨hfront | ⟨rfl, -⟩ | hback, howned⟩, hne⟩
    · exact ⟨.inl hfront, howned⟩
    · exact absurd rfl hne
    · exact ⟨.inr (.inr hback), howned⟩

/-! ### Fragmentation -/

def ownedOf (bs : List Block) : List Block := bs.filter fun b => b.owned

def freeOf (bs : List Block) : List Block := bs.filter fun b => !b.owned

theorem span_split (bs : List Block) : span hdr (ownedOf bs) + span hdr (freeOf bs) = span hdr bs := by
  induction bs with
  | nil => rfl
  | cons b bs ih =>
    cases hb : b.owned <;> simp only [ownedOf, freeOf, List.filter_cons, hb, Bool.not_false, Bool.not_true,
      if_true, Bool.false_eq_true, if_false, span_cons] at ih ⊢ <;> omega

/-- Free blocks are kept apart by owned ones. -/
theorem length_freeOf {bs : List Block} (h : Separated bs) : (freeOf bs).length ≤ (ownedOf bs).length + 1 := by
  induction bs using List.twoStepInduction with
  | nil => exact Nat.zero_le _
  | singleton b => cases hb : b.owned <;> simp [freeOf, ownedOf, hb]
  | cons_cons b c bs ih hcons =>
    obtain ⟨hbc, htail⟩ := List.isChain_cons_cons.mp h
    cases hb : b.owned with
    | true =>
      have := hcons c htail
      simp only [freeOf, ownedOf, List.filter_cons, hb, Bool.not_true, Bool.false_eq_true, if_false, if_true,
        List.length_cons] at this ⊢
      omega
    | false =>
      -- the neighbour of a free block is owned, so the two count as one of each
      have hc : c.owned = true := by simpa [hb] using hbc
      have := ih htail.tail
      simp only [freeOf, ownedOf, List.filter_cons, hb, hc, Bool.not_true, Bool.not_false, Bool.false_eq_true,
        if_false, if_true, List.length_cons] at this ⊢
      omega

/-- Where no block can serve, the free ones are all short. -/
theorem span_freeOf_le {n : Nat} {bs : List Block} (h : ∀ b ∈ bs, ¬ Serves n b) :
    span hdr (freeOf bs) ≤ (freeOf bs).length * (hdr + n - 1) := by
  induction bs with
  | nil => exact Nat.zero_le _
  | cons b bs ih =>
    have hb := h b (List.mem_cons_self ..)
    have hrest := ih fun c hc => h c (List.mem_cons_of_mem b hc)
    cases howned : b.owned with
    | true => simpa [freeOf, List.filter_cons, howned] using hrest
    | false =>
      have hsize : b.size < n := by
        by_contra hle
        exact hb ⟨howned, by omega⟩
      simp only [freeOf, List.filter_cons, howned, Bool.not_false, if_true, span_cons, List.length_cons,
        Nat.succ_mul] at hrest ⊢
      omega

/-- **The worst fragmentation.** In a row without free neighbours, `k` owned blocks leave
at most `k + 1` gaps; when these together are too long for each to be shorter than the
request, one of them can serve. -/
theorem exists_serves {n : Nat} {bs : List Block} (h : Separated bs)
    (hroom : span hdr (ownedOf bs) + ((ownedOf bs).length + 1) * (hdr + n - 1) < span hdr bs) :
    ∃ b ∈ bs, Serves n b := by
  by_contra hnone
  have hfree : span hdr (freeOf bs) ≤ (freeOf bs).length * (hdr + n - 1) :=
    span_freeOf_le fun b hb hserves => hnone ⟨b, hb, hserves⟩
  have hcount := Nat.mul_le_mul_right (hdr + n - 1) (length_freeOf h)
  have hsplit : span hdr (ownedOf bs) + span hdr (freeOf bs) = span hdr bs := span_split bs
  omega

/-- A request longer than all that is not owned cannot be served. -/
theorem not_serves_of_span {n : Nat} {bs : List Block} (hshort : span hdr bs < span hdr (ownedOf bs) + hdr + n)
    {b : Block} (hb : b ∈ bs) : ¬ Serves n b := by
  rintro ⟨hfree, hle⟩
  have hsplit : span hdr (ownedOf bs) + span hdr (freeOf bs) = span hdr bs := span_split bs
  have hmem : b ∈ freeOf bs := List.mem_filter.mpr ⟨hb, by simp [hfree]⟩
  obtain ⟨front, back, hrow⟩ := List.append_of_mem hmem
  rw [hrow, span_append, span_cons] at hsplit
  omega

end CustomIsaVm.Blocks
