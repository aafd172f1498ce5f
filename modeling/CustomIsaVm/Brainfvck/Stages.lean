import CustomIsaVm.Brainfvck.Brackets

/-! A source on its way through the passes.

`Stages` names the items of a source after each pass, with what is known of them:
brackets that stand once and have partners, literals no larger than the source is long.
Every balanced source has its stages (`stages`); nothing after this module looks into a
pass. -/
namespace CustomIsaVm.Brainfvck
open Text Fold Brackets

/-! ### How large literals are -/

/-- The characters that are translated. -/
def isCommand (c : Char) : Bool := "><+-.,[]".toList.contains c

/-- What an item adds to a place, or takes from it. -/
def Item.weight : Item → Nat
  | op .add _ (.num v) | op .sub _ (.num v) => v.natAbs
  | _ => 0

def weight (items : List Item) : Nat := (items.map Item.weight).sum

@[simp] theorem weight_nil : weight [] = 0 := rfl

@[simp] theorem weight_cons (x : Item) (xs : List Item) : weight (x :: xs) = x.weight + weight xs := by
  simp [weight]

@[simp] theorem weight_append (xs ys : List Item) : weight (xs ++ ys) = weight xs + weight ys := by
  simp [weight]

@[simp] theorem weight_bump (d : Place) (v : Int) : (Item.bump d v).weight = v.natAbs := by
  unfold Item.bump
  split <;> simp [Item.weight]

/-- The literal, if there is one, is no further from zero than `n`. -/
def Item.Within (n : Nat) : Item → Prop
  | op _ _ (.num v) => v.natAbs ≤ n
  | _ => True

theorem Item.Within.mono {x : Item} {m n : Nat} (h : x.Within m) (hmn : m ≤ n) : x.Within n := by
  unfold Item.Within at h ⊢
  split
  · exact h.trans hmn
  · trivial

theorem within_bump {d : Place} {v : Int} {n : Nat} (h : v.natAbs ≤ n) : (Item.bump d v).Within n := by
  unfold Item.bump
  split
  · exact h
  · show (-v).natAbs ≤ n
    omega

theorem within_merged {d : Place} {v : Int} {n : Nat} (h : v.natAbs ≤ n) : ∀ x ∈ merged d v, x.Within n := by
  unfold merged
  split
  · simp
  · intro x hx
    rw [List.mem_singleton.mp hx]
    exact within_bump h

/-- What is emitted adds no more than is known of all items. -/
theorem Emitted.within {V : Int → Prop} {x : Item} (h : Emitted V x) {n : Nat} (hx : x.weight ≤ n)
    (hn : 2 ≤ n) : x.Within n := by
  cases h with
  | fixed h =>
    unfold Item.fixed at h
    split at h
    · exact hn
    all_goals trivial
  | bump hd hv =>
    rw [weight_bump] at hx
    exact within_bump hx

theorem Emitted.weight_le_one {x : Item} (h : Emitted Unit x) : x.weight ≤ 1 := by
  cases h with
  | fixed hfixed =>
    unfold Item.fixed at hfixed
    split at hfixed <;> first | exact Nat.zero_le 1 | cases hfixed
  | bump hd hv =>
    rw [weight_bump]
    rcases hv with rfl | rfl <;> exact Nat.le_refl 1

theorem weight_mem {x : Item} {xs : List Item} (h : x ∈ xs) : x.weight ≤ weight xs := by
  obtain ⟨before, rest, rfl⟩ := List.append_of_mem h
  rw [weight_append, weight_cons]
  omega

/-- Each character adds one at most. -/
theorem generated_weight {text : Str} {g g' : Generated} (h : text.foldlM Generated.step g = some g') :
    weight g'.items ≤ weight g.items + text.countP isCommand := by
  induction text generalizing g with
  | nil =>
    cases h
    exact Nat.le_add_right ..
  | cons c text ih =>
    rw [List.foldlM_cons] at h
    obtain ⟨u, hu, h⟩ := Option.bind_eq_some_iff.mp h
    refine (ih h).trans ?_
    rw [List.countP_cons]
    suffices hstep : weight u.items ≤ weight g.items + if isCommand c = true then 1 else 0 by omega
    unfold Generated.step at hu
    split at hu
    · cases hu; simp [Generated.add, isCommand]
    · cases hu; simp [Generated.add, isCommand]
    · cases hu; simp [Generated.add, isCommand]
    · cases hu; simp [Generated.add, isCommand]
    · cases hu; simp [Generated.add, Item.weight]
    · cases hu; simp [Generated.add, Item.weight]
    · cases hu; simp [Item.weight]
    · split at hu
      · cases hu
      · cases hu; simp [Item.weight]
    · cases hu; exact Nat.le_add_right ..

theorem weight_bumps (d : Place) (vs : List Int) : vs.sum.natAbs ≤ weight (vs.map (Item.bump d)) := by
  induction vs with
  | nil => exact Nat.zero_le _
  | cons v vs ih =>
    rw [List.sum_cons, List.map_cons, weight_cons, weight_bump]
    omega

/-- Merging adds nothing. -/
theorem Merged.weight_le {xs ys : List Item} (h : Merged xs ys) : weight ys ≤ weight xs := by
  induction h with
  | nil => exact Nat.le_refl _
  | keep x _ ih =>
    rw [weight_cons, weight_cons]
    omega
  | run d vs _ _ ih =>
    have hrun : weight (merged d vs.sum) ≤ weight (vs.map (Item.bump d)) := by
      refine le_trans ?_ (weight_bumps d vs)
      unfold merged
      split <;> simp
    rw [weight_append, weight_append]
    omega

/-! ### Replaced loops -/

/-- The pointer's offset and those of the entries lie within `n` of each other and of
zero, and no entry adds more. -/
structure Spread (n : Nat) (s : Int × List CellMod) : Prop where
  near : ∀ x ∈ 0 :: s.1 :: s.2.map CellMod.offset, ∀ y ∈ 0 :: s.1 :: s.2.map CellMod.offset,
    (x - y).natAbs ≤ n
  values : ∀ m ∈ s.2, m.value.natAbs ≤ n

theorem addMod_values {offset v : Int} {mods : List CellMod} {n : Nat}
    (h : ∀ m ∈ mods, m.value.natAbs ≤ n) : ∀ m ∈ addMod offset v mods, m.value.natAbs ≤ n + v.natAbs := by
  induction mods with
  | nil =>
    intro m hm
    rw [addMod, List.mem_singleton] at hm
    subst hm
    exact Nat.le_add_left ..
  | cons m mods ih =>
    have hm := h m (List.mem_cons_self ..)
    have hmods : ∀ m' ∈ mods, m'.value.natAbs ≤ n := fun m' hm' => h m' (List.mem_cons_of_mem m hm')
    intro m' hm'
    unfold addMod at hm'
    split at hm'
    · rcases List.mem_cons.mp hm' with rfl | hm'
      · show (m.value + v).natAbs ≤ _
        omega
      · exact (hmods m' hm').trans (Nat.le_add_right ..)
    · rcases List.mem_cons.mp hm' with rfl | hm'
      · omega
      · exact ih hmods m' hm'

theorem Spread.move {n : Nat} {ptr : Int} {mods : List CellMod} (h : Spread n (ptr, mods)) (v : Int) :
    Spread (n + v.natAbs) (ptr + v, mods) := by
  refine ⟨fun x hx y hy => ?_, fun m hm => (h.values m hm).trans (Nat.le_add_right ..)⟩
  -- each of the two is a number of before, or the pointer moved by `v`
  have hold : ∀ z ∈ 0 :: (ptr + v) :: mods.map CellMod.offset,
      ∃ z' ∈ 0 :: ptr :: mods.map CellMod.offset, z = z' ∨ (z = ptr + v ∧ z' = ptr) := by
    intro z hz
    simp only [List.mem_cons] at hz
    rcases hz with rfl | rfl | hz
    · exact ⟨0, by simp, .inl rfl⟩
    · exact ⟨ptr, by simp, .inr ⟨rfl, rfl⟩⟩
    · exact ⟨z, by simp only [List.mem_cons]; exact .inr (.inr hz), .inl rfl⟩
  obtain ⟨x', hx', hxx⟩ := hold x hx
  obtain ⟨y', hy', hyy⟩ := hold y hy
  have := h.near x' hx' y' hy'
  omega

theorem Spread.mods {n : Nat} {ptr : Int} {mods : List CellMod} (h : Spread n (ptr, mods)) (v : Int) :
    Spread (n + v.natAbs) (ptr, addMod ptr v mods) := by
  have hold : ∀ z ∈ 0 :: ptr :: (addMod ptr v mods).map CellMod.offset,
      z ∈ 0 :: ptr :: mods.map CellMod.offset := by
    intro z hz
    simp only [List.mem_cons] at hz ⊢
    rcases hz with rfl | rfl | hz
    · exact .inl rfl
    · exact .inr (.inl rfl)
    · obtain ⟨m, hm, rfl⟩ := List.mem_map.mp hz
      rcases mem_addMod (List.mem_map_of_mem hm) with heq | hmem
      · exact .inr (.inl heq)
      · exact .inr (.inr hmem)
  exact ⟨fun x hx y hy => (h.near x (hold x hx) y (hold y hy)).trans (Nat.le_add_right ..),
    addMod_values h.values⟩

theorem analyze_spread {body : List Item} {s s' : Int × List CellMod} {n : Nat}
    (h : body.foldlM analyzeItem s = some s') (hs : Spread n s) : Spread (n + weight body) s' := by
  induction body generalizing s n with
  | nil =>
    cases h
    exact hs
  | cons x body ih =>
    rw [List.foldlM_cons] at h
    obtain ⟨u, hu, h⟩ := Option.bind_eq_some_iff.mp h
    rw [weight_cons, ← Nat.add_assoc]
    refine ih h ?_
    obtain ⟨ptr, mods⟩ := s
    unfold analyzeItem at hu
    split at hu <;> cases hu
    · exact hs.move _
    next v _ =>
      have := hs.move (-v)
      rwa [Int.natAbs_neg] at this
    · exact hs.mods _
    next v _ =>
      have := hs.mods (-v)
      rwa [Int.natAbs_neg] at this

theorem takeSelf_mem {mods others : List CellMod} {self : CellMod}
    (h : takeSelf mods = some (self, others)) : ∀ m ∈ others, m ∈ mods := by
  induction mods generalizing others with
  | nil => cases h
  | cons n mods ih =>
    unfold takeSelf at h
    split at h
    · cases h
      exact fun m hm => List.mem_cons_of_mem _ hm
    · obtain ⟨⟨self', others'⟩, htake, heq⟩ := Option.map_eq_some_iff.mp h
      cases heq
      intro m hm
      rcases List.mem_cons.mp hm with rfl | hm
      · exact List.mem_cons_self ..
      · exact List.mem_cons_of_mem n (ih htake m hm)

theorem emitItems_within {n : Nat} {cur : Int} {mods : List CellMod}
    (hnear : ∀ x ∈ 0 :: cur :: mods.map CellMod.offset, ∀ y ∈ 0 :: cur :: mods.map CellMod.offset,
      (x - y).natAbs ≤ n) (hvalues : ∀ m ∈ mods, m.value.natAbs ≤ n) :
    ∀ x ∈ emitItems cur mods, x.Within n := by
  induction mods generalizing cur with
  | nil =>
    refine within_merged ?_
    simpa using hnear 0 (by simp) cur (by simp)
  | cons m mods ih =>
    have hm := hvalues m (List.mem_cons_self ..)
    intro x hx
    rw [emitItems, List.append_assoc, List.mem_append, List.mem_append] at hx
    rcases hx with hx | hx | hx
    · exact within_merged (hnear m.offset (by simp) cur (by simp)) x hx
    · split at hx
      · rw [List.mem_singleton.mp hx]; trivial
      split at hx
      · rw [List.mem_singleton.mp hx]; trivial
      split at hx
      all_goals
        simp only [List.mem_cons, List.not_mem_nil, or_false] at hx
        rcases hx with rfl | rfl | rfl <;> trivial
    · have hold : ∀ z ∈ 0 :: m.offset :: mods.map CellMod.offset,
          z ∈ 0 :: cur :: (m :: mods).map CellMod.offset := by
        intro z hz
        simp only [List.mem_cons, List.map_cons] at hz ⊢
        rcases hz with h | h | h <;> simp [h]
      exact ih (fun y hy z hz => hnear y (hold y hy) z (hold z hz))
        (fun m' hm' => hvalues m' (List.mem_cons_of_mem m hm')) x hx

/-- What replaces a loop adds no more than its body. -/
theorem loopItems_within {body : List Item} {others : List CellMod} (h : LoopBody body others) {n : Nat}
    (hn : weight body ≤ n) : ∀ x ∈ loopItems others, x.Within n := by
  obtain ⟨mods, self, hfold, htake, -⟩ := h
  have hspread : Spread (0 + weight body) (0, mods) := analyze_spread hfold ⟨by simp, by simp⟩
  rw [Nat.zero_add] at hspread
  have hmem : ∀ m ∈ byOffset others, m ∈ mods := fun m hm =>
    takeSelf_mem htake m ((byOffset_perm others).mem_iff.mp hm)
  have hoffset : ∀ z ∈ 0 :: 0 :: (byOffset others).map CellMod.offset,
      z ∈ 0 :: (0, mods).1 :: (0, mods).2.map CellMod.offset := by
    intro z hz
    simp only [List.mem_cons, List.mem_map] at hz ⊢
    rcases hz with rfl | rfl | ⟨m, hm, rfl⟩
    · exact .inl rfl
    · exact .inl rfl
    · exact .inr (.inr ⟨m, hmem m hm, rfl⟩)
  intro x hx
  unfold loopItems at hx
  split at hx
  · rw [List.mem_singleton.mp hx]
    exact Nat.zero_le n
  · simp only [List.cons_append, List.nil_append, List.mem_cons] at hx
    rcases hx with rfl | rfl | hx
    · trivial
    · exact Nat.zero_le n
    · exact emitItems_within
        (fun y hy z hz => (hspread.near y (hoffset y hy) z (hoffset z hz)).trans hn)
        (fun m hm => (hspread.values m (hmem m hm)).trans hn) x hx

theorem Looped.within {xs ys : List Item} (h : Looped xs ys) {n : Nat} (hxs : ∀ x ∈ xs, x.Within n)
    (hn : weight xs ≤ n) : ∀ y ∈ ys, y.Within n := by
  induction h with
  | nil => simp
  | keep x _ ih =>
    intro y hy
    rw [weight_cons] at hn
    rcases List.mem_cons.mp hy with rfl | hy
    · exact hxs y (List.mem_cons_self ..)
    · exact ih (fun z hz => hxs z (List.mem_cons_of_mem _ hz)) (by omega) y hy
  | loop id hbody _ ih =>
    intro y hy
    simp only [weight_cons, weight_append] at hn
    rcases List.mem_append.mp hy with hy | hy
    · exact loopItems_within hbody (by omega) y hy
    · exact ih (fun z hz => hxs z (by simp [hz])) (by omega) y hy

/-! ### The stages -/

/-- The brackets of a program stand once, and each has its partner. -/
structure WellBracketed (prog : List Item) : Prop where
  unique : UniqueBrackets prog
  partner : ∀ x ∈ prog, x.isBracket = true → x.partner ∈ prog

/-- The items of `source`: as generated, with runs merged, with loops replaced. -/
structure Stages (source : Str) (xs ys zs : List Item) : Prop where
  emits : ∃ g, source.foldlM Generated.step .start = some g ∧ xs = g.items ++ [.halt]
  generated : generate source = .ok (assembly xs)
  optimized : applyOptimizations (assembly xs) = assembly ys
  replaced : applyLoopOptimizations (assembly ys) = assembly zs
  units : ∀ x ∈ xs, Emitted Unit x
  merged : Merged xs ys
  looped : Looped ys zs
  brackets : WellBracketed xs

namespace Stages
variable {source : Str} {xs ys zs : List Item}

theorem plain (h : Stages source xs ys zs) : ∀ x ∈ xs, x.plain = true := fun x hx => (h.units x hx).plain

theorem brackets_merged (h : Stages source xs ys zs) : WellBracketed ys := by
  have hmem : ∀ x : Item, x.isBracket = true → (x ∈ ys ↔ x ∈ xs) := by
    intro x hx
    have := congrArg (x ∈ ·) h.merged.brackets
    simpa [List.mem_filter, hx] using this
  refine ⟨h.brackets.unique.of_sublist (by rw [h.merged.brackets]), fun x hx hb => ?_⟩
  rw [hmem _ (Item.isBracket_partner hb)]
  exact h.brackets.partner x ((hmem x hb).mp hx) hb

theorem brackets_replaced (h : Stages source xs ys zs) : WellBracketed zs where
  unique := h.brackets_merged.unique.of_sublist h.looped.brackets
  partner x hx hb := h.looped.partner h.brackets_merged.unique hb hx
    (h.brackets_merged.partner x (h.looped.mem hb hx) hb)

/-- No literal of a stage is larger than the source is long, or than the two of the
entry code. -/
theorem within (h : Stages source xs ys zs) {n : Nat} (hn : source.countP isCommand ≤ n) (h2 : 2 ≤ n) :
    (∀ x ∈ xs, x.Within n) ∧ ∀ z ∈ zs, z.Within n := by
  obtain ⟨g, hg, rfl⟩ := h.emits
  have hxs : weight (g.items ++ [.halt]) ≤ n := by
    have := generated_weight hg
    simp [Item.weight, Generated.start] at this ⊢
    omega
  have hys := h.merged.weight_le.trans hxs
  refine ⟨fun x hx => (h.units x hx).within ((weight_mem hx).trans hxs) h2, ?_⟩
  refine h.looped.within (fun y hy => ?_) hys
  exact (h.merged.emitted h.units y hy).within ((weight_mem hy).trans hys) h2

end Stages

/-- **A balanced source goes through all passes**, and the last replaces the loops that it
finds. -/
theorem stages_found {source : Str} (h : Balanced source) :
    ∃ xs ys zs, Stages source xs ys zs ∧ Found ys zs := by
  obtain ⟨text, htext⟩ := generate_balanced h
  obtain ⟨g, hg, hstack, rfl⟩ := generate_items htext
  have hnumbered : Numbered g := generated_keeps (fun _ _ _ hg hs => hg.step hs) hg .start
  have hunits : ∀ x ∈ g.items ++ [.halt], Emitted Unit x := by
    have hstart : ∀ x ∈ Generated.start.items, Emitted Unit x := by
      intro x hx
      rw [List.mem_singleton.mp hx]
      exact .fixed rfl
    have hitems : ∀ x ∈ g.items, Emitted Unit x :=
      generated_keeps (I := fun g => ∀ x ∈ g.items, Emitted Unit x)
        (fun _ _ _ hg hs => Generated.step_emitted hs hg) hg hstart
    intro x hx
    rcases List.mem_append.mp hx with hx | hx
    · exact hitems x hx
    · rw [List.mem_singleton.mp hx]
      exact .fixed rfl
  have hbrackets : WellBracketed (g.items ++ [.halt]) := by
    refine ⟨uniqueBrackets_snoc hnumbered.unique nofun, fun x hx hb => List.mem_append_left _ ?_⟩
    have hx : x ∈ g.items := by
      rcases List.mem_append.mp hx with hx | hx
      · exact hx
      · rw [List.mem_singleton.mp hx] at hb
        cases hb
    cases x with
    | loopStart id =>
      have := hnumbered.closed id hx
      rw [hstack] at this
      exact this.resolve_left (by simp)
    | loopEnd id => exact hnumbered.opened id hx
    | op => cases hb
    | print => cases hb
    | input => cases hb
    | halt => cases hb
  obtain ⟨ys, hys, hmerged⟩ := applyOptimizations_merged hunits
  obtain ⟨zs, hzs, hlooped, hfound⟩ := applyLoopOptimizations_looped (hmerged.emitted hunits)
  exact ⟨_, ys, zs, ⟨⟨g, hg, rfl⟩, htext, hys, hzs, hunits, hmerged, hlooped, hbrackets⟩, hfound⟩

theorem stages {source : Str} (h : Balanced source) : ∃ xs ys zs, Stages source xs ys zs := by
  obtain ⟨xs, ys, zs, hstages, -⟩ := stages_found h
  exact ⟨xs, ys, zs, hstages⟩

end CustomIsaVm.Brainfvck
