import CustomIsaVm.Brainfvck.Rendering

/-! One pass of `apply_loop_optimizations` is enough.

The pass walks over the lines once and never looks back. A loop around a loop it has
replaced might have become one that it would replace too; it has not, because every
replacement begins with a `MOV`, which no body that is analysed may hold. So what the
pass leaves behind holds no loop that it would still replace, and a second pass changes
nothing (`loop_pass_settles`). This is so for every text, generated or not. -/
namespace CustomIsaVm.Brainfvck
open Text

/-! ### What replaces a loop -/

/-- What a loop is replaced by is written as items, and begins with a `MOV`. -/
theorem replacement_shape {body out : List Str} (h : replacement body = some out) :
    ∃ items, out = allLines items ∧ (∀ x ∈ items, ∃ o d src, x = .op o d src) ∧
      ∃ line rest, out = line :: rest ∧ line.head? = some 'M' := by
  unfold replacement at h
  split at h
  next =>
    cases h
    exact ⟨loopItems [], by decide, fun x hx => loopItems_op hx, _, [], rfl, rfl⟩
  next =>
    split at h
    next =>
      obtain ⟨mods, hmods, rfl⟩ := Option.map_eq_some_iff.mp h
      obtain ⟨⟨ptr, all⟩, -, hmods⟩ := Option.bind_eq_some_iff.mp hmods
      have hne : mods ≠ [] := by
        rintro rfl
        unfold multMods at hmods
        split at hmods
        next => cases hmods
        next =>
          split at hmods
          next => cases hmods
          next =>
            split at hmods
            next => cases hmods
            next =>
              split at hmods
              next => cases hmods
              next hne =>
                cases hmods
                exact hne rfl
      exact ⟨loopItems mods, (loopItems_lines hne).symm, fun x hx => loopItems_op hx, _, _, rfl, rfl⟩
    next => cases h

/-- No line of it is the label of a loop. -/
theorem replacement_no_start {body out : List Str} (h : replacement body = some out) :
    ∀ line ∈ out, "start_par_".toList.isPrefixOf line = false := by
  obtain ⟨items, rfl, hops, -⟩ := replacement_shape h
  intro line hline
  obtain ⟨x, hx, hlines⟩ := List.mem_flatMap.mp hline
  obtain ⟨o, d, src, rfl⟩ := hops x hx
  exact isPrefixOf_start_par (head_lines (fun id heq => by cases heq) hlines)

theorem analyze_no_mov {body : List Str} {s s' : Int × List CellMod} (h : body.foldlM analyzeLine s = some s') :
    ∀ line ∈ body, line.head? ≠ some 'M' := by
  induction body generalizing s with
  | nil => simp
  | cons line body ih =>
    rw [List.foldlM_cons] at h
    obtain ⟨u, hu, h⟩ := Option.bind_eq_some_iff.mp h
    intro l hl hM
    rcases List.mem_cons.mp hl with rfl | hl
    · obtain ⟨t, rfl⟩ := List.head?_eq_some_iff.mp hM
      rw [analyzeLine_none s (by decide) (by decide)] at hu
      cases hu
    · exact ih h l hl hM

/-- The body of a loop that is replaced is not empty and holds no `MOV`. -/
theorem replacement_body {body out : List Str} (h : replacement body = some out) :
    body ≠ [] ∧ ∀ line ∈ body, line.head? ≠ some 'M' := by
  unfold replacement at h
  split at h
  next hclear =>
    subst hclear
    decide
  next =>
    split at h
    next hlong =>
      obtain ⟨mods, hmods, -⟩ := Option.map_eq_some_iff.mp h
      obtain ⟨s, hfold, -⟩ := Option.bind_eq_some_iff.mp hmods
      refine ⟨?_, analyze_no_mov hfold⟩
      rintro rfl
      simp at hlong
    next => cases h

/-! ### What is kept -/

/-- What is in front of the first `MOV` has been copied. -/
theorem replaceLoops_front {lines more : List Str} (front : List Str) (h : replaceLoops 0 lines = front ++ more)
    (hfront : ∀ line ∈ front, line.head? ≠ some 'M') : ∃ more', lines = front ++ more' := by
  induction front generalizing lines with
  | nil => exact ⟨lines, rfl⟩
  | cons line front ih =>
    cases lines with
    | nil => cases h
    | cons x lines =>
      by_cases hfound : ∃ loop out, tryParseLoop (x :: lines) = some loop ∧ replacement loop.body = some out
      · obtain ⟨loop, out, hparse, hreplace⟩ := hfound
        obtain ⟨-, -, -, l, rest, rfl, hM⟩ := replacement_shape hreplace
        rw [replaceLoops_found hparse hreplace, List.cons_append, List.cons_append] at h
        injection h with hl _
        subst hl
        exact absurd hM (hfront l (List.mem_cons_self ..))
      · rw [replaceLoops_kept fun loop hparse => Option.eq_none_iff_forall_ne_some.mpr fun out hout =>
          hfound ⟨loop, out, hparse, hout⟩, List.cons_append] at h
        injection h with hx h
        subst hx
        obtain ⟨more', rfl⟩ := ih h fun l hl => hfront l (List.mem_cons_of_mem x hl)
        exact ⟨more', rfl⟩

/-- The lines of a loop from its label to its last jump. -/
def loopLines (line : Str) (id : Int) (body : List Str) : List Str :=
  line :: "CMP [A], 0".toList :: ("JE ".toList ++ ("close_par_".toList ++ decimalInt id)) ::
    (body ++ ["close_par_".toList ++ decimalInt id ++ ":".toList, "CMP [A], 0".toList,
      "JNE start_par_".toList ++ decimalInt id])

/-- Where these lines stand, `try_parse_loop` finds the loop, whatever follows. -/
theorem tryParseLoop_loopLines {line : Str} {id : Int} {body : List Str} (more : List Str)
    (hid : parseParId line "start_par_".toList = some id) (hne : body ≠ [])
    (hbody : ∀ l ∈ body, l ≠ "close_par_".toList ++ decimalInt id ++ ":".toList) :
    tryParseLoop (loopLines line id body ++ more) = some ⟨id, 3 + body.length, body⟩ := by
  generalize hclosing : "close_par_".toList ++ decimalInt id ++ ":".toList = closing at hbody
  obtain ⟨b, bs, hcons⟩ := List.exists_cons_of_ne_nil hne
  have htake : (body ++ (closing :: "CMP [A], 0".toList :: ("JNE start_par_".toList ++ decimalInt id) :: more)).takeWhile
      (fun l => decide (l ≠ closing)) = body := by
    rw [List.takeWhile_append_of_pos (by simpa using hbody)]
    simp
  have hget : ∀ (a b c : Str) (rest : List Str) k,
      (a :: b :: c :: (body ++ rest))[3 + body.length + k]? = rest[k]? := by
    intro a b c rest k
    rw [show 3 + body.length + k = body.length + k + 3 by omega]
    simp [List.getElem?_append_right]
  have hlines : loopLines line id body ++ more = line :: "CMP [A], 0".toList ::
      ("JE ".toList ++ ("close_par_".toList ++ decimalInt id)) ::
      (body ++ (closing :: "CMP [A], 0".toList :: ("JNE start_par_".toList ++ decimalInt id) :: more)) := by
    simp [loopLines, ← hclosing]
  rw [hlines]
  unfold tryParseLoop
  simp only [List.getElem?_cons_zero, Option.bind_eq_bind, Option.bind_some, hid, List.drop_succ_cons,
    List.drop_zero, hclosing, htake]
  rw [hget, hget, if_neg (by simp only [List.length_cons, List.length_append, hcons]; omega), if_neg (by simp),
    if_neg (by simp only [List.length_cons, List.length_append]; omega), if_neg (by simp)]
  rfl

/-- A loop found behind a line that was kept was there before the pass. -/
theorem kept_settled {x : Str} {lines out : List Str} {loop : ParsedLoop}
    (hparse : tryParseLoop (x :: replaceLoops 0 lines) = some loop) (hout : replacement loop.body = some out) :
    ∃ loop', tryParseLoop (x :: lines) = some loop' ∧ loop'.body = loop.body := by
  obtain ⟨hne, hmov⟩ := replacement_body hout
  obtain ⟨line, more, hid, heq, -, hbody⟩ := tryParseLoop_eq_some hparse
  obtain ⟨rfl, hlines⟩ := List.cons.inj heq
  have hfront : replaceLoops 0 lines = (loopLines x loop.id loop.body).tail ++ more := by
    rw [hlines]
    simp [loopLines]
  obtain ⟨more', rfl⟩ := replaceLoops_front _ hfront (fun l hl => by
      simp only [loopLines, List.tail_cons, List.mem_cons, List.mem_append, List.not_mem_nil, or_false] at hl
      rcases hl with rfl | rfl | hl | rfl | rfl | rfl
      · decide
      · simp
      · exact hmov l hl
      · simp
      · decide
      · simp)
  exact ⟨_, tryParseLoop_loopLines more' hid hne hbody, rfl⟩

/-! ### The pass -/

/-- There is no loop in the lines that would be replaced. -/
def Settled (lines : List Str) : Prop :=
  ∀ above below loop, lines = above ++ below → tryParseLoop below = some loop → replacement loop.body = none

theorem settled_cons {x : Str} {lines : List Str} : Settled (x :: lines) ↔
    (∀ loop, tryParseLoop (x :: lines) = some loop → replacement loop.body = none) ∧ Settled lines := by
  constructor
  · intro h
    exact ⟨fun loop hloop => h [] (x :: lines) loop rfl hloop,
      fun above below loop heq hloop => h (x :: above) below loop (by rw [heq]; rfl) hloop⟩
  · rintro ⟨hx, hrest⟩ above below loop heq hloop
    cases above with
    | nil =>
      rw [List.nil_append] at heq
      subst heq
      exact hx loop hloop
    | cons y above =>
      cases heq
      exact hrest above below loop rfl hloop

/-- Lines that begin no loop may stand in front. -/
theorem Settled.append {front lines : List Str} (h : Settled lines)
    (hfront : ∀ line ∈ front, "start_par_".toList.isPrefixOf line = false) : Settled (front ++ lines) := by
  induction front with
  | nil => exact h
  | cons line front ih =>
    rw [List.cons_append]
    refine settled_cons.mpr ⟨fun loop hloop => ?_, ih fun l hl => hfront l (List.mem_cons_of_mem line hl)⟩
    rw [tryParseLoop_none _ (hfront line (List.mem_cons_self ..))] at hloop
    cases hloop

/-- Settled lines are left as they are. -/
theorem Settled.replaceLoops {lines : List Str} (h : Settled lines) : replaceLoops 0 lines = lines := by
  induction lines with
  | nil => rfl
  | cons x lines ih =>
    obtain ⟨hx, hrest⟩ := settled_cons.mp h
    rw [replaceLoops_kept hx, ih hrest]

/-- The lines a pass leaves are settled. The induction is on the lines: a loop that is
replaced is passed over as a whole, and any other line is kept. -/
theorem settled_replaceLoops (lines : List Str) : Settled (replaceLoops 0 lines) := by
  induction hn : lines.length using Nat.strongRecOn generalizing lines with
  | _ n ih =>
    subst hn
    cases lines with
    | nil =>
      intro above below loop heq hloop
      obtain ⟨-, rfl⟩ := List.append_eq_nil_iff.mp heq.symm
      cases hloop
    | cons x lines =>
      by_cases hfound : ∃ loop out, tryParseLoop (x :: lines) = some loop ∧ replacement loop.body = some out
      · obtain ⟨loop, out, hparse, hreplace⟩ := hfound
        rw [replaceLoops_found hparse hreplace]
        refine (ih _ ?_ (lines.drop (loop.closeIdx + 2)) rfl).append (replacement_no_start hreplace)
        rw [List.length_drop, List.length_cons]
        omega
      · have hkept : ∀ loop, tryParseLoop (x :: lines) = some loop → replacement loop.body = none :=
          fun loop hparse => Option.eq_none_iff_forall_ne_some.mpr fun out hout => hfound ⟨loop, out, hparse, hout⟩
        rw [replaceLoops_kept hkept]
        refine settled_cons.mpr ⟨fun loop hparse => ?_, ih _ (Nat.lt_succ_self _) lines rfl⟩
        cases hout : replacement loop.body with
        | none => rfl
        | some out =>
          obtain ⟨loop', hparse', hbody⟩ := kept_settled hparse hout
          rw [← hbody, hkept loop' hparse'] at hout
          cases hout

/-! ### Texts -/

theorem newline_notin_replaceLoops (n : Nat) (lines : List Str) (h : ∀ line ∈ lines, '\n' ∉ line) :
    ∀ line ∈ replaceLoops n lines, '\n' ∉ line := by
  induction lines generalizing n with
  | nil => simp [replaceLoops]
  | cons x lines ih =>
    have hrest : ∀ line ∈ lines, '\n' ∉ line := fun line hline => h line (List.mem_cons_of_mem x hline)
    have hcopy : ∀ line ∈ x :: replaceLoops 0 lines, '\n' ∉ line := by
      intro line hline
      rcases List.mem_cons.mp hline with rfl | hline
      · exact h line (List.mem_cons_self ..)
      · exact ih 0 hrest line hline
    cases n with
    | succ n => exact ih n hrest
    | zero =>
      rw [replaceLoops]
      split
      next => exact hcopy
      next loop _ =>
        split
        next => exact hcopy
        next out hout =>
          obtain ⟨items, rfl, -⟩ := replacement_shape hout
          intro line hline
          rcases List.mem_append.mp hline with hline | hline
          · obtain ⟨x, -, hx⟩ := List.mem_flatMap.mp hline
            exact newline_notin_lines hx
          · exact ih _ hrest line hline

/-- **One pass replaces all the loops it ever will.** In the text that
`apply_loop_optimizations` makes of any text, no loop is left that it would replace, also
none around a loop that it has replaced; so applied again it changes nothing. -/
theorem loop_pass_settles (code : Str) : Settled (getlines (applyLoopOptimizations code)) ∧
    applyLoopOptimizations (applyLoopOptimizations code) = applyLoopOptimizations code := by
  have hlines : getlines (applyLoopOptimizations code) = replaceLoops 0 (getlines code) :=
    getlines_unlines _ (newline_notin_replaceLoops 0 _ (newline_notin_getlines code))
  have hsettled := settled_replaceLoops (getlines code)
  refine ⟨by rw [hlines]; exact hsettled, ?_⟩
  rw [applyLoopOptimizations, hlines, hsettled.replaceLoops, applyLoopOptimizations]

end CustomIsaVm.Brainfvck
