import CustomIsaVm.Brainfvck.Stages

/-! How the items of a stage begin and end.

Every stage starts with the instruction that puts the pointer behind the header, and ends
with its one `HALT` (`Halting`); its other literals are those of arithmetic. -/
namespace CustomIsaVm.Brainfvck

/-! ### The end -/

/-- The program ends in `HALT`, and nowhere else. -/
def Halting (prog : List Item) : Prop := ∃ front, prog = front ++ [.halt] ∧ .halt ∉ front

theorem halting_cons {x : Item} {xs : List Item} :
    Halting (x :: xs) ↔ (x = .halt ∧ xs = []) ∨ (x ≠ .halt ∧ Halting xs) := by
  constructor
  · rintro ⟨front, h, hnot⟩
    cases front with
    | nil =>
      cases h
      exact .inl ⟨rfl, rfl⟩
    | cons y front =>
      cases h
      rw [List.mem_cons, not_or] at hnot
      exact .inr ⟨Ne.symm hnot.1, front, rfl, hnot.2⟩
  · rintro (⟨rfl, rfl⟩ | ⟨hne, front, rfl, hnot⟩)
    · exact ⟨[], rfl, by simp⟩
    · exact ⟨x :: front, rfl, by simp [Ne.symm hne, hnot]⟩

theorem halting_append {above xs : List Item} (h : .halt ∉ above) : Halting (above ++ xs) ↔ Halting xs := by
  induction above with
  | nil => rfl
  | cons x above ih =>
    rw [List.mem_cons, not_or] at h
    rw [List.cons_append, halting_cons, ih h.2]
    simp [Ne.symm h.1]

/-- Whatever is left of a program halts. -/
theorem Halting.rest {done rest : List Item} (h : Halting (done ++ rest)) (hne : rest ≠ []) : Halting rest := by
  induction done with
  | nil => exact h
  | cons x done ih =>
    rcases halting_cons.mp h with ⟨-, hnil⟩ | ⟨-, h⟩
    · exact absurd (List.append_eq_nil_iff.mp hnil).2 hne
    · exact ih h

/-! ### Through the passes -/

/-- A run is arithmetic. -/
theorem ne_bump {x : Item} (hx : ∀ o d src, x = .op o d src → o = .mov) (d : Place) (v : Int) :
    x ≠ .bump d v := by
  rintro rfl
  unfold Item.bump at hx
  split at hx
  · cases hx _ _ _ rfl
  · cases hx _ _ _ rfl

theorem halt_ne_bump (d : Place) (v : Int) : Item.halt ≠ .bump d v :=
  ne_bump (fun _ _ _ heq => by cases heq) d v

theorem Merged.nil_left {ys : List Item} (h : Merged [] ys) : ys = [] := by
  generalize hxs : ([] : List Item) = xs at h
  induction h with
  | nil => rfl
  | keep => cases hxs
  | run d vs _ _ ih =>
    obtain ⟨hvs, hrest⟩ := List.append_eq_nil_iff.mp hxs.symm
    rw [List.map_eq_nil_iff] at hvs
    rw [hvs, ih hrest.symm]
    rfl

/-- An item that is no part of a run stays the first. -/
theorem Merged.head {x : Item} {xs ys : List Item} (h : Merged (x :: xs) ys)
    (hx : ∀ d v, x ≠ .bump d v) : ∃ ys', ys = x :: ys' ∧ Merged xs ys' := by
  generalize hxs : x :: xs = xxs at h
  induction h with
  | nil => cases hxs
  | keep y h _ =>
    cases hxs
    exact ⟨_, rfl, h⟩
  | run d vs _ _ ih =>
    cases vs with
    | nil => exact ih hxs
    | cons v vs =>
      cases hxs
      exact absurd rfl (hx d v)

theorem Merged.halting {xs ys : List Item} (h : Merged xs ys) (hx : Halting xs) : Halting ys := by
  induction h with
  | nil => exact hx
  | keep x h ih =>
    rcases halting_cons.mp hx with ⟨rfl, rfl⟩ | ⟨hne, hx⟩
    · rw [h.nil_left]
      exact hx
    · exact halting_cons.mpr (.inr ⟨hne, ih hx⟩)
  | run d vs _ _ ih =>
    have hbumps : .halt ∉ vs.map (Item.bump d) := by simp [Ne.symm (halt_ne_bump d _)]
    have hmerged : ∀ v, .halt ∉ merged d v := by
      intro v
      unfold merged
      split
      · simp
      · simp [halt_ne_bump d v]
    rw [halting_append hbumps] at hx
    exact (halting_append (hmerged _)).mpr (ih hx)

/-- A loop that is replaced has no `HALT` in it. -/
theorem LoopBody.no_halt {body : List Item} {others : List CellMod} (h : LoopBody body others) :
    .halt ∉ body := by
  obtain ⟨mods, self, hfold, -, -⟩ := h
  generalize ((0 : Int), ([] : List CellMod)) = s at hfold
  induction body generalizing s with
  | nil => simp
  | cons y body ih =>
    rw [List.foldlM_cons] at hfold
    obtain ⟨u, hu, hfold⟩ := Option.bind_eq_some_iff.mp hfold
    rw [List.mem_cons, not_or]
    refine ⟨?_, ih u hfold⟩
    rintro rfl
    cases hu

theorem Looped.halting {ys zs : List Item} (h : Looped ys zs) (hy : Halting ys) : Halting zs := by
  induction h with
  | nil => exact hy
  | keep x h ih =>
    rcases halting_cons.mp hy with ⟨rfl, rfl⟩ | ⟨hne, hy⟩
    · cases h
      exact hy
    · exact halting_cons.mpr (.inr ⟨hne, ih hy⟩)
  | @loop id body xs ys others hbody _ ih =>
    have hloop : .halt ∉ .loopStart id :: (body ++ [.loopEnd id]) := by simp [hbody.no_halt]
    have hitems : .halt ∉ loopItems others := by
      intro hmem
      obtain ⟨o, d, src, heq⟩ := loopItems_op hmem
      cases heq
    have hsplit : Item.loopStart id :: (body ++ .loopEnd id :: xs) =
        .loopStart id :: (body ++ [.loopEnd id]) ++ xs := by simp
    rw [hsplit, halting_append hloop] at hy
    exact (halting_append hitems).mpr (ih hy)

/-! ### Literals -/

/-- A literal that is moved is one of the two that the compiler writes. -/
def Item.MovesFixed (x : Item) : Prop := ∀ d v, x = op .mov d (.num v) → v = 0 ∨ v = 2

theorem movesFixed_place (o : Operation) (d p : Place) : (Item.op o d (.place p)).MovesFixed := by
  intro d' v heq
  cases heq

theorem movesFixed_arith {o : Operation} (h : o ≠ .mov) (d : Place) (s : Source) : (Item.op o d s).MovesFixed := by
  intro d' v heq
  cases heq
  exact absurd rfl h

theorem movesFixed_bump (d : Place) (v : Int) : (Item.bump d v).MovesFixed := by
  unfold Item.bump
  split
  · exact movesFixed_arith (by decide) _ _
  · exact movesFixed_arith (by decide) _ _

theorem movesFixed_merged {d : Place} {v : Int} : ∀ x ∈ merged d v, x.MovesFixed := by
  unfold merged
  split
  · simp
  · intro x hx
    rw [List.mem_singleton.mp hx]
    exact movesFixed_bump d v

theorem Emitted.movesFixed {V : Int → Prop} {x : Item} (h : Emitted V x) : x.MovesFixed := by
  cases h with
  | fixed h =>
    rintro d v rfl
    unfold Item.fixed at h
    split at h
    · rename_i heq
      cases heq
      exact .inr rfl
    all_goals first | (rename_i heq; cases heq) | cases h
  | bump hd hv => exact movesFixed_bump _ _

theorem emitItems_movesFixed {cur : Int} {mods : List CellMod} : ∀ x ∈ emitItems cur mods, x.MovesFixed := by
  induction mods generalizing cur with
  | nil => exact movesFixed_merged
  | cons m mods ih =>
    intro x hx
    rw [emitItems, List.append_assoc, List.mem_append, List.mem_append] at hx
    rcases hx with hx | hx | hx
    · exact movesFixed_merged x hx
    · split at hx
      · rw [List.mem_singleton.mp hx]; exact movesFixed_place _ _ _
      split at hx
      · rw [List.mem_singleton.mp hx]; exact movesFixed_place _ _ _
      split at hx
      all_goals
        simp only [List.mem_cons, List.not_mem_nil, or_false] at hx
        rcases hx with rfl | rfl | rfl <;>
          first | exact movesFixed_place _ _ _ | exact movesFixed_arith (by decide) _ _
    · exact ih x hx

theorem loopItems_movesFixed {others : List CellMod} : ∀ x ∈ loopItems others, x.MovesFixed := by
  have hclear : (Item.op .mov .cell (.num 0)).MovesFixed := by
    intro d v heq
    cases heq
    exact .inl rfl
  intro x hx
  unfold loopItems at hx
  split at hx
  · rw [List.mem_singleton.mp hx]
    exact hclear
  · simp only [List.cons_append, List.nil_append, List.mem_cons] at hx
    rcases hx with rfl | rfl | hx
    · exact movesFixed_place _ _ _
    · exact hclear
    · exact emitItems_movesFixed x hx

theorem Looped.movesFixed {ys zs : List Item} (h : Looped ys zs) (hy : ∀ y ∈ ys, y.MovesFixed) :
    ∀ z ∈ zs, z.MovesFixed := by
  induction h with
  | nil => simp
  | keep x _ ih =>
    intro z hz
    rcases List.mem_cons.mp hz with rfl | hz
    · exact hy z (List.mem_cons_self ..)
    · exact ih (fun y hmem => hy y (List.mem_cons_of_mem x hmem)) z hz
  | loop id _ _ ih =>
    intro z hz
    rcases List.mem_append.mp hz with hz | hz
    · exact loopItems_movesFixed z hz
    · exact ih (fun y hmem => hy y (by simp [hmem])) z hz

/-! ### The stages -/

namespace Stages
variable {source : Str} {xs ys zs : List Item}

/-- The first item of every stage puts the pointer behind the header. -/
theorem head (h : Stages source xs ys zs) : ∃ xs' ys' zs', xs = .op .mov .a (.num 2) :: xs' ∧
    ys = .op .mov .a (.num 2) :: ys' ∧ zs = .op .mov .a (.num 2) :: zs' ∧ Merged xs' ys' ∧ Looped ys' zs' := by
  obtain ⟨g, hg, hxs⟩ := h.emits
  have hfirst : ∃ items, g.items = .op .mov .a (.num 2) :: items := by
    refine generated_keeps (I := fun g => ∃ items, g.items = .op .mov .a (.num 2) :: items) ?_ hg ⟨[], rfl⟩
    rintro g c g' ⟨items, hitems⟩ hs
    obtain ⟨more, hmore⟩ : ∃ more, g'.items = g.items ++ more := by
      unfold Generated.step at hs
      split at hs
      all_goals first | (cases hs; exact ⟨_, rfl⟩) | skip
      · split at hs
        · cases hs
        · cases hs
          exact ⟨_, rfl⟩
      · cases hs
        exact ⟨[], (List.append_nil _).symm⟩
    exact ⟨items ++ more, by rw [hmore, hitems, List.cons_append]⟩
  obtain ⟨items, hitems⟩ := hfirst
  rw [hitems, List.cons_append] at hxs
  have hmerged := h.merged
  rw [hxs] at hmerged
  obtain ⟨ys', hys, hmerged'⟩ := hmerged.head (ne_bump fun _ _ _ heq => by cases heq; rfl)
  have hlooped := h.looped
  rw [hys] at hlooped
  cases hlooped with
  | keep _ hlooped' => exact ⟨_, ys', _, hxs, hys, rfl, hmerged', hlooped'⟩

theorem halting_emitted (h : Stages source xs ys zs) : Halting xs := by
  obtain ⟨g, hg, hxs⟩ := h.emits
  have hnot : .halt ∉ g.items := by
    refine generated_keeps (I := fun g => .halt ∉ g.items) ?_ hg (by simp [Generated.start])
    intro g c g' hnot hs
    unfold Generated.step at hs
    split at hs
    all_goals first | (cases hs; simp [Generated.add, hnot, halt_ne_bump]) | skip
    · split at hs
      · cases hs
      · cases hs
        simp [hnot]
  exact ⟨g.items, hxs, hnot⟩

theorem halting_merged (h : Stages source xs ys zs) : Halting ys := h.merged.halting h.halting_emitted

theorem halting (h : Stages source xs ys zs) : Halting zs := h.looped.halting h.halting_merged

theorem movesFixed_merged (h : Stages source xs ys zs) : ∀ y ∈ ys, y.MovesFixed := fun y hy =>
  (h.merged.emitted h.units y hy).movesFixed

theorem movesFixed (h : Stages source xs ys zs) : ∀ z ∈ zs, z.MovesFixed :=
  h.looped.movesFixed h.movesFixed_merged

end Stages
end CustomIsaVm.Brainfvck
