import CustomIsaVm.Brainfvck.Brackets

/-! When a run is merged.

`apply_optimizations` counts lines of one kind at a time. A block of the other kind that
arrives while a count is open closes it with its first line, which is copied; and a count
that has come back to zero is not closed at all, so that every line of the other kind is
copied until the next count that does not. `mergeLine_cases` says what one line does to
the mode and the count, `MaximalBlock.turned` what a block comes to, and `blocks_merged`
that a block is merged completely exactly where neither is in its way. -/
namespace CustomIsaVm.Brainfvck
open Text

/-! ### Lines that are counted -/

/-- What a run counts: the value of the cell or the place of the pointer. -/
inductive RunKind where
  | math
  | ptr
  deriving DecidableEq, Repr

namespace RunKind

def add : RunKind → Str
  | math => "ADD [A]".toList
  | ptr => "ADD A".toList

def sub : RunKind → Str
  | math => "SUB [A]".toList
  | ptr => "SUB A".toList

def other : RunKind → RunKind
  | math => ptr
  | ptr => math

theorem eq_other {j k : RunKind} (h : j ≠ k) : j = k.other := by
  cases j <;> cases k <;> first | rfl | exact absurd rfl h

end RunKind

/-- The kind of run that a line belongs to, and what it counts for. -/
def counts (line : Str) : Option (RunKind × Int) :=
  if "ADD [A]".toList.isPrefixOf line then some (.math, 1)
  else if "SUB [A]".toList.isPrefixOf line then some (.math, -1)
  else if "ADD A".toList.isPrefixOf line then some (.ptr, 1)
  else if "SUB A".toList.isPrefixOf line then some (.ptr, -1)
  else none

def kindOf (line : Str) : Option RunKind := (counts line).map Prod.fst

/-- The `ADD` lines less the `SUB` lines. -/
def net (block : List Str) : Int := (block.map fun line => ((counts line).map Prod.snd).getD 0).sum

@[simp] theorem net_nil : net [] = 0 := rfl

theorem net_cons {line : Str} {k : RunKind} {u : Int} (h : counts line = some (k, u)) (block : List Str) :
    net (line :: block) = u + net block := by
  simp only [net, List.map_cons, List.sum_cons, h, Option.map_some, Option.getD_some]

theorem kindOf_eq_some {line : Str} {k : RunKind} : kindOf line = some k ↔ ∃ u, counts line = some (k, u) := by
  simp only [kindOf, Option.map_eq_some_iff, Prod.exists, exists_and_right, exists_eq_right]

/-- The line that carries a count, and none for zero. -/
def summary (k : RunKind) (v : Int) : List Str :=
  if v = 0 then []
  else if 0 < v then [k.add ++ ", ".toList ++ decimalInt v]
  else [k.sub ++ ", ".toList ++ decimalInt (-v)]

@[simp] theorem summary_zero (k : RunKind) : summary k 0 = [] := rfl

theorem summary_length (k : RunKind) {v : Int} (hv : v ≠ 0) : (summary k v).length = 1 := by
  unfold summary
  rw [if_neg hv]
  split <;> rfl

/-! ### The mode and the count -/

/-- The local variables with `code` written, in the mode of a run or in none. -/
def merging (code : Str) (mode : Option RunKind) (v : Int) : Merging :=
  ⟨code, mode == some .math, mode == some .ptr, v⟩

/-- The line that an open count stands for. -/
def pending : Option RunKind → Int → List Str
  | some k, v => summary k v
  | none, _ => []

theorem pending_zero (mode : Option RunKind) : pending mode 0 = [] := by
  cases mode <;> rfl

theorem flush_zero (code : Str) (mode : Option RunKind) : (merging code mode 0).flush = merging code mode 0 := rfl

theorem flush_some (code : Str) (k : RunKind) {v : Int} (hv : v ≠ 0) :
    (merging code (some k) v).flush = merging (code ++ unlines (summary k v)) none 0 := by
  have htext : unlines (summary k v) =
      (if 0 < v then k.add ++ ", ".toList ++ decimalInt v else k.sub ++ ", ".toList ++ decimalInt (-v)) ++
        "\n".toList := by
    rw [summary, if_neg hv]
    split <;> rw [unlines_cons, unlines_nil] <;> rfl
  rw [htext, Merging.flush]
  simp only [merging, hv, if_false]
  cases k <;> by_cases hpos : 0 < v <;> simp only [hpos, if_true, if_false] <;> rfl

/-- The branches of `mergeLine` are the kinds of lines. -/
theorem mergeLine_eq (s : Merging) (line : Str) : mergeLine s line = match counts line with
    | some (.math, u) => s.math line u
    | some (.ptr, u) => s.ptr line u
    | none => s.copy line := by
  unfold mergeLine counts
  split
  · rfl
  split
  · rfl
  split
  · rfl
  split <;> rfl

theorem copy_merging {mode : Option RunKind} {v : Int} (hv : mode = none → v = 0) (code line : Str) :
    (merging code mode v).copy line =
      merging (code ++ unlines (pending mode v ++ [line])) (if v = 0 then mode else none) 0 := by
  by_cases hzero : v = 0
  · subst hzero
    rw [if_pos rfl, pending_zero, Merging.copy, flush_zero]
    simp [merging]
  · cases mode with
    | none => exact absurd (hv rfl) hzero
    | some k =>
      rw [if_neg hzero, Merging.copy, flush_some code k hzero, unlines_append]
      simp [merging, pending]

/-- A line of the kind that is counted, or of any if none is, is counted. -/
theorem mergeLine_join {line : Str} {k : RunKind} {u : Int} (h : counts line = some (k, u))
    {mode : Option RunKind} (hmode : mode = none ∨ mode = some k) (code : Str) (v : Int) :
    mergeLine (merging code mode v) line = merging code (some k) (v + u) := by
  rw [mergeLine_eq, h]
  rcases hmode with rfl | rfl <;> cases k <;> rfl

/-- Other lines are copied. -/
theorem mergeLine_stay {line : Str} {mode : Option RunKind}
    (h : ∀ k, kindOf line = some k → mode = some k.other) (code : Str) (v : Int) :
    mergeLine (merging code mode v) line = (merging code mode v).copy line := by
  rw [mergeLine_eq]
  cases hline : counts line with
  | none => rfl
  | some c =>
    obtain ⟨k, u⟩ := c
    rw [h k (kindOf_eq_some.mpr ⟨u, hline⟩)]
    cases k <;> rfl

/-- **What one line does to the mode and the count.** -/
theorem mergeLine_cases {mode : Option RunKind} {v : Int} (hv : mode = none → v = 0) (code line : Str) :
    (∃ k u, counts line = some (k, u) ∧ (mode = none ∨ mode = some k) ∧
      mergeLine (merging code mode v) line = merging code (some k) (v + u)) ∨
    ((∀ k, kindOf line = some k → mode = some k.other) ∧ mergeLine (merging code mode v) line =
      merging (code ++ unlines (pending mode v ++ [line])) (if v = 0 then mode else none) 0) := by
  by_cases hjoin : ∃ k u, counts line = some (k, u) ∧ (mode = none ∨ mode = some k)
  · obtain ⟨k, u, hline, hmode⟩ := hjoin
    exact .inl ⟨k, u, hline, hmode, mergeLine_join hline hmode code v⟩
  · have hstay : ∀ k, kindOf line = some k → mode = some k.other := by
      intro k hk
      obtain ⟨u, hline⟩ := kindOf_eq_some.mp hk
      cases mode with
      | none => exact absurd ⟨k, u, hline, .inl rfl⟩ hjoin
      | some j =>
        have hne : j ≠ k := by
          rintro rfl
          exact hjoin ⟨j, u, hline, .inr rfl⟩
        rw [RunKind.eq_other hne]
    exact .inr ⟨hstay, (mergeLine_stay hstay code v).trans (copy_merging hv code line)⟩

/-- After `lines` the mode and the count are these, with `code` written. -/
structure LeftAt (lines : List Str) (code : Str) (mode : Option RunKind) (v : Int) : Prop where
  state : lines.foldl mergeLine .start = merging code mode v
  noMode : mode = none → v = 0
  /-- An open count is one of the last line. -/
  last : v ≠ 0 → ∃ line ∈ lines.getLast?, kindOf line = mode

theorem exists_leftAt (lines : List Str) : ∃ code mode v, LeftAt lines code mode v := by
  induction lines using List.reverseRecOn with
  | nil => exact ⟨[], none, 0, rfl, fun _ => rfl, fun h => absurd rfl h⟩
  | append_singleton lines line ih =>
    obtain ⟨code, mode, v, h⟩ := ih
    have hstep : (lines ++ [line]).foldl mergeLine .start = mergeLine (merging code mode v) line := by
      rw [List.foldl_append, h.state]
      rfl
    rcases mergeLine_cases h.noMode code line with ⟨k, u, hline, -, hjoin⟩ | ⟨-, hstay⟩
    · refine ⟨code, some k, v + u, hstep.trans hjoin, by simp, fun _ => ⟨line, by simp, ?_⟩⟩
      exact kindOf_eq_some.mpr ⟨u, hline⟩
    · exact ⟨_, _, 0, hstep.trans hstay, fun _ => rfl, fun h => absurd rfl h⟩

/-! ### What is written -/

/-- `apply_optimizations`, on the lines of the text. -/
def optimized (lines : List Str) : Str := (lines.foldl mergeLine .start).flush.optimizedCode

theorem applyOptimizations_eq (code : Str) : applyOptimizations code = optimized (getlines code) := rfl

theorem flush_merging {mode : Option RunKind} {v : Int} (hv : mode = none → v = 0) (code : Str) :
    (merging code mode v).flush.optimizedCode = code ++ unlines (pending mode v) := by
  by_cases hzero : v = 0
  · subst hzero
    rw [flush_zero, pending_zero]
    simp [merging]
  · cases mode with
    | none => exact absurd (hv rfl) hzero
    | some k =>
      rw [flush_some code k hzero]
      rfl

theorem LeftAt.optimized {lines : List Str} {code : Str} {mode : Option RunKind} {v : Int}
    (h : LeftAt lines code mode v) : optimized lines = code ++ unlines (pending mode v) := by
  rw [Brainfvck.optimized, h.state, flush_merging h.noMode]

/-- What is written stays. -/
theorem written_grows (lines : List Str) {mode : Option RunKind} {v : Int} (hv : mode = none → v = 0)
    (code : Str) :
    ∃ more, (lines.foldl mergeLine (merging code mode v)).flush.optimizedCode = code ++ unlines more := by
  induction lines generalizing code mode v with
  | nil => exact ⟨pending mode v, flush_merging hv code⟩
  | cons line lines ih =>
    rw [List.foldl_cons]
    rcases mergeLine_cases hv code line with ⟨k, u, -, -, hjoin⟩ | ⟨-, hstay⟩
    · have hnone : some k = none → v + u = 0 := by simp
      rw [hjoin]
      exact ih hnone code
    · rw [hstay]
      obtain ⟨more, hmore⟩ := ih (fun _ => rfl) (code ++ unlines (pending mode v ++ [line]))
      exact ⟨pending mode v ++ [line] ++ more, by rw [hmore, unlines_append _ more, List.append_assoc]⟩

/-- **A count goes no further than lines of its kind**: what has been read is written as if
nothing came after. -/
theorem optimized_append {above below : List Str}
    (h : ∀ k, (∃ line ∈ above.getLast?, kindOf line = some k) → ∀ line ∈ below.head?, kindOf line ≠ some k) :
    ∃ after, optimized (above ++ below) = optimized above ++ unlines after := by
  obtain ⟨code, mode, v, hcount⟩ := exists_leftAt above
  rw [hcount.optimized]
  have hstart : optimized (above ++ below) =
      (below.foldl mergeLine (merging code mode v)).flush.optimizedCode := by
    rw [optimized, List.foldl_append, hcount.state]
  rw [hstart]
  cases below with
  | nil => exact ⟨[], by simp [flush_merging hcount.noMode]⟩
  | cons line below =>
    rw [List.foldl_cons]
    rcases mergeLine_cases hcount.noMode code line with ⟨k, u, hline, hmode, hjoin⟩ | ⟨-, hstay⟩
    · have hzero : v = 0 := by
        by_contra hv
        obtain ⟨l, hl, hkind⟩ := hcount.last hv
        rcases hmode with rfl | rfl
        · exact hv (hcount.noMode rfl)
        · exact h k ⟨l, hl, hkind⟩ line rfl (kindOf_eq_some.mpr ⟨u, hline⟩)
      have hnone : some k = none → 0 + u = 0 := by simp
      rw [hjoin, hzero, pending_zero]
      obtain ⟨more, hmore⟩ := written_grows below hnone code
      exact ⟨more, by rw [hmore]; simp⟩
    · have hnone : (if v = 0 then mode else none) = none → (0 : Int) = 0 := fun _ => rfl
      rw [hstay]
      obtain ⟨more, hmore⟩ := written_grows below hnone (code ++ unlines (pending mode v ++ [line]))
      exact ⟨line :: more, by rw [hmore, unlines_append]; simp⟩

/-! ### Blocks -/

/-- `block` is all of one kind, and neither the line before it nor the one after it is. -/
structure MaximalBlock (k : RunKind) (above block below : List Str) : Prop where
  nonempty : block ≠ []
  kind : ∀ line ∈ block, kindOf line = some k
  before : ∀ line ∈ above.getLast?, kindOf line ≠ some k
  after : ∀ line ∈ below.head?, kindOf line ≠ some k

/-- The lines `block` of `text` are turned into `made`, between what the lines above them are
turned into and what follows. -/
structure Turned (text : Str) (above block made : List Str) : Prop where
  upTo : optimized (above ++ block) = optimized above ++ unlines made
  rest : ∃ after, applyOptimizations text = optimized above ++ unlines made ++ unlines after

/-- The mode that the two flags say. -/
def Merging.mode (s : Merging) : Option RunKind :=
  if s.accumulatingMath then some .math else if s.accumulatingPtr then some .ptr else none

@[simp] theorem mode_merging (code : Str) (mode : Option RunKind) (v : Int) :
    (merging code mode v).mode = mode := by
  rcases mode with _ | _ | _ <;> rfl

/-- What a block of the kind `k` is turned into in the state `s`. -/
def Merging.turns (s : Merging) (k : RunKind) (block : List Str) : List Str :=
  if s.mode = some k.other then
    if s.accumulatedValue = 0 then block else block.take 1 ++ summary k (net block.tail)
  else summary k (net block)

/-- Lines of the kind that is counted are counted. -/
theorem foldl_join {k : RunKind} {block : List Str} (hblock : ∀ line ∈ block, kindOf line = some k)
    {mode : Option RunKind} (hmode : mode = none ∨ mode = some k) {v : Int} (hv : mode = none → v = 0)
    (code : Str) : ∃ mode', (mode' = none ∨ mode' = some k) ∧ (mode' = none → v + net block = 0) ∧
      block.foldl mergeLine (merging code mode v) = merging code mode' (v + net block) := by
  induction block generalizing mode v with
  | nil => exact ⟨mode, hmode, by simpa using hv, by simp⟩
  | cons line block ih =>
    obtain ⟨u, hline⟩ := kindOf_eq_some.mp (hblock line (List.mem_cons_self ..))
    have hnone : some k = none → v + u = 0 := by simp
    rw [List.foldl_cons, mergeLine_join hline hmode, net_cons hline, ← Int.add_assoc]
    exact ih (fun l hl => hblock l (List.mem_cons_of_mem line hl)) (.inr rfl) hnone

/-- What a count of the kind `k` is written as, in whichever mode. -/
theorem pending_eq_summary {k : RunKind} {mode : Option RunKind} (hmode : mode = none ∨ mode = some k)
    {v : Int} (hv : mode = none → v = 0) : pending mode v = summary k v := by
  rcases hmode with rfl | rfl
  · rw [hv rfl]
    rfl
  · rfl

/-- From a state that counts nothing of another kind, a block is written as its net count. -/
theorem written_join {k : RunKind} {block : List Str} (hblock : ∀ line ∈ block, kindOf line = some k)
    {mode : Option RunKind} (hmode : mode = none ∨ mode = some k) (code : Str) :
    (block.foldl mergeLine (merging code mode 0)).flush.optimizedCode =
      code ++ unlines (summary k (net block)) := by
  obtain ⟨mode', hmode', hnone, hfold⟩ := foldl_join hblock hmode (fun _ => rfl) code
  rw [hfold, flush_merging hnone, pending_eq_summary hmode' hnone, Int.zero_add]

/-- A line of the other kind does not join a count. -/
theorem other_kind {line : Str} {k : RunKind} (h : kindOf line = some k) :
    ∀ j, kindOf line = some j → some k.other = some j.other := by
  intro j hj
  rw [h] at hj
  cases hj
  rfl

/-- A count that has come back to zero has lines of the other kind copied. -/
theorem foldl_stuck {k : RunKind} {block : List Str} (hblock : ∀ line ∈ block, kindOf line = some k)
    (code : Str) : block.foldl mergeLine (merging code (some k.other) 0) =
      merging (code ++ unlines block) (some k.other) 0 := by
  induction block generalizing code with
  | nil => simp
  | cons line block ih =>
    have hstay := other_kind (hblock line (List.mem_cons_self ..))
    have hnone : some k.other = none → (0 : Int) = 0 := fun _ => rfl
    rw [List.foldl_cons, mergeLine_stay hstay, copy_merging hnone, if_pos rfl, pending_zero,
      ih fun l hl => hblock l (List.mem_cons_of_mem line hl)]
    simp

/-- A count that is open has the first line of a block of the other kind copied. -/
theorem written_closed {k : RunKind} {line : Str} {more : List Str}
    (hblock : ∀ l ∈ line :: more, kindOf l = some k) {v : Int} (hv : v ≠ 0) (code : Str) :
    ((line :: more).foldl mergeLine (merging code (some k.other) v)).flush.optimizedCode =
      code ++ unlines (summary k.other v) ++ unlines (line :: summary k (net more)) := by
  have hnone : some k.other = none → v = 0 := by simp
  rw [List.foldl_cons, mergeLine_stay (other_kind (hblock line (List.mem_cons_self ..))), copy_merging hnone,
    if_neg hv, written_join (fun l hl => hblock l (List.mem_cons_of_mem line hl)) (.inl rfl)]
  simp [unlines_append, pending]

/-- Before a maximal block no count of its kind is open. -/
theorem MaximalBlock.no_count {k : RunKind} {above block below : List Str}
    (h : MaximalBlock k above block below) {code : Str} {mode : Option RunKind} {v : Int}
    (hleft : LeftAt above code mode v) : mode = some k.other ∨ ((mode = none ∨ mode = some k) ∧ v = 0) := by
  by_cases hother : mode = some k.other
  · exact .inl hother
  · have hmode : mode = none ∨ mode = some k := by
      cases mode with
      | none => exact .inl rfl
      | some j =>
        by_contra hne
        exact hother (by rw [RunKind.eq_other fun heq => hne (.inr (congrArg some heq))])
    refine .inr ⟨hmode, ?_⟩
    by_contra hv
    obtain ⟨line, hline, hkind⟩ := hleft.last hv
    rcases hmode with rfl | rfl
    · exact hv (hleft.noMode rfl)
    · exact h.before line hline hkind

theorem MaximalBlock.upTo {k : RunKind} {above block below : List Str} (h : MaximalBlock k above block below) :
    optimized (above ++ block) = optimized above ++ unlines ((above.foldl mergeLine .start).turns k block) := by
  obtain ⟨code, mode, v, hleft⟩ := exists_leftAt above
  have hstart : optimized (above ++ block) =
      (block.foldl mergeLine (merging code mode v)).flush.optimizedCode := by
    rw [optimized, List.foldl_append, hleft.state]
  rw [hstart, hleft.optimized, hleft.state, Merging.turns, mode_merging]
  show _ = code ++ unlines (pending mode v) ++ unlines (if mode = some k.other then
    if v = 0 then block else block.take 1 ++ summary k (net block.tail) else summary k (net block))
  rcases h.no_count hleft with rfl | ⟨hmode, rfl⟩
  · rw [if_pos rfl]
    by_cases hv : v = 0
    · subst hv
      rw [foldl_stuck h.kind, flush_merging fun _ => rfl, if_pos rfl, pending_zero]
      simp
    · obtain ⟨line, more, rfl⟩ := List.exists_cons_of_ne_nil h.nonempty
      rw [if_neg hv, written_closed h.kind hv]
      rfl
  · have hother : mode ≠ some k.other := by
      rcases hmode with rfl | rfl
      · simp
      · cases k <;> simp [RunKind.other]
    rw [if_neg hother, written_join h.kind hmode, pending_zero]
    simp

/-- **What a block is turned into.** -/
theorem MaximalBlock.turned {k : RunKind} {text : Str} {above block below : List Str}
    (h : MaximalBlock k above block below) (hlines : getlines text = above ++ block ++ below) :
    Turned text above block ((above.foldl mergeLine .start).turns k block) := by
  refine ⟨h.upTo, ?_⟩
  rw [← h.upTo, applyOptimizations_eq, hlines]
  refine optimized_append fun j ⟨line, hline, hkind⟩ l hl => ?_
  have hmem : line ∈ block := by
    rw [List.getLast?_append_of_ne_nil _ h.nonempty] at hline
    exact List.mem_of_getLast? hline
  rw [h.kind line hmem] at hkind
  cases hkind
  exact h.after l hl

/-! ### When a block is merged -/

/-- What one text is turned into is one list of lines. -/
theorem Turned.unique {text : Str} {above block made made' : List Str} (h : Turned text above block made)
    (h' : Turned text above block made') (hmade : ∀ line ∈ made, '\n' ∉ line)
    (hmade' : ∀ line ∈ made', '\n' ∉ line) : made = made' := by
  have heq := List.append_cancel_left (h.upTo.symm.trans h'.upTo)
  rw [← getlines_unlines made hmade, ← getlines_unlines made' hmade', heq]

theorem newline_notin_summary (k : RunKind) (v : Int) : ∀ line ∈ summary k v, '\n' ∉ line := by
  have hadd : '\n' ∉ k.add := by cases k <;> decide
  have hsub : '\n' ∉ k.sub := by cases k <;> decide
  unfold summary
  split
  · simp
  split <;> simp [hadd, hsub, newline_notin_decimalInt]

/-- Nothing above is in the way of merging `block`: no count of the other kind, or one that
leaves no more than a line to be written. -/
def Merging.Joins (s : Merging) (k : RunKind) (block : List Str) : Prop :=
  s.mode = some k.other →
    (s.accumulatedValue = 0 → block.tail = []) ∧ (s.accumulatedValue ≠ 0 → net block.tail = 0)

/-- A line of a unit is the line that carries what it counts for. -/
def Carries (line : Str) : Prop := ∀ k u, counts line = some (k, u) → [line] = summary k u

theorem turns_eq_summary_iff (s : Merging) {k : RunKind} {block : List Str} (hne : block ≠ [])
    (hblock : ∀ line ∈ block, kindOf line = some k) (hlines : ∀ line ∈ block, Carries line) :
    s.turns k block = summary k (net block) ↔ s.Joins k block := by
  obtain ⟨line, more, rfl⟩ := List.exists_cons_of_ne_nil hne
  obtain ⟨u, hline⟩ := kindOf_eq_some.mp (hblock line (List.mem_cons_self ..))
  have hcarries := hlines line (List.mem_cons_self ..) k u hline
  have hshort : ∀ v, (summary k v).length ≤ 1 := by
    intro v
    by_cases hv : v = 0
    · simp [hv]
    · rw [summary_length k hv]
  unfold Merging.turns Merging.Joins
  by_cases hmode : s.mode = some k.other
  · rw [if_pos hmode, imp_iff_right hmode, List.tail_cons, List.take_succ_cons, List.take_zero,
      net_cons hline]
    by_cases hv : s.accumulatedValue = 0
    · rw [if_pos hv]
      simp only [hv, forall_const, ne_eq, not_true_eq_false, false_implies, and_true]
      constructor
      · intro heq
        have := hshort (u + net more)
        rw [← heq, List.length_cons] at this
        exact List.length_eq_zero_iff.mp (by omega)
      · rintro rfl
        rw [hcarries, net_nil, Int.add_zero]
    · rw [if_neg hv]
      simp only [hv, false_implies, ne_eq, not_false_eq_true, forall_const, true_and]
      constructor
      · intro heq
        by_contra hnet
        have := hshort (u + net more)
        rw [← heq, List.length_append, summary_length k hnet] at this
        simp at this
      · intro hnet
        rw [hnet, summary_zero, List.append_nil, hcarries, Int.add_zero]
  · rw [if_neg hmode]
    exact ⟨fun _ h => absurd h hmode, fun _ => rfl⟩

/-! ### Generated text -/

/-- The lines of generated text carry what they count for. -/
theorem carries_lines {x : Item} (hx : Emitted Unit x) : ∀ line ∈ x.lines, Carries line := by
  intro line hline k u hcounts
  cases hx with
  | fixed hfixed =>
    obtain ⟨c, t, rfl, hA, hS⟩ := fixed_lines hfixed hline
    simp [counts, List.isPrefixOf, Ne.symm hA, Ne.symm hS] at hcounts
  | bump hd hv =>
    rcases hd with rfl | rfl <;> rcases hv with rfl | rfl
    all_goals
      rw [List.mem_singleton.mp hline] at hcounts ⊢
      cases hcounts
      decide

theorem carries_assembly {items : List Item} (hitems : ∀ x ∈ items, Emitted Unit x) :
    ∀ line ∈ getlines (assembly items), Carries line ∧ '\n' ∉ line := by
  intro line hline
  rw [getlines_assembly] at hline
  rcases List.mem_append.mp hline with h | h
  · have hpreamble : ∀ line ∈ preamble, counts line = none ∧ '\n' ∉ line := by decide
    refine ⟨fun k u hcounts => ?_, (hpreamble line h).2⟩
    rw [(hpreamble line h).1] at hcounts
    cases hcounts
  · obtain ⟨x, hx, hline⟩ := List.mem_flatMap.mp h
    exact ⟨carries_lines (hitems x hx) line hline, newline_notin_lines hline⟩

/-- **When runs are merged completely.** In all text that code generation builds, a maximal
block of one kind is turned into the line of its net count, or into none for zero, exactly
where no count of the other kind is in the way: one that is open has the first line of the
block copied, and one that has come back to zero all of them. -/
theorem blocks_merged (source : Str) (s : Codegen)
    (hsource : (getlines source).flatten.foldlM translate .start = .ok s) (text : Str)
    (htext : text = s.codeTmp ∨ text = (s.emit "HALT\n".toList).codeTmp) (k : RunKind)
    (above block below : List Str) (hlines : getlines text = above ++ block ++ below)
    (hblock : MaximalBlock k above block below) :
    Turned text above block (summary k (net block)) ↔ (above.foldl mergeLine .start).Joins k block := by
  obtain ⟨items, rfl, hitems⟩ := translated_items hsource htext
  have hmem : ∀ line ∈ block, line ∈ getlines (assembly items) := fun line hline => by
    rw [hlines]
    exact List.mem_append_left _ (List.mem_append_right _ hline)
  have hcarries : ∀ line ∈ block, Carries line := fun line hline =>
    (carries_assembly hitems line (hmem line hline)).1
  have hnewline : ∀ line ∈ block, '\n' ∉ line := fun line hline =>
    (carries_assembly hitems line (hmem line hline)).2
  rw [← turns_eq_summary_iff _ hblock.nonempty hblock.kind hcarries]
  constructor
  · intro h
    refine (hblock.turned hlines).unique h (fun line hline => ?_) (newline_notin_summary k _)
    unfold Merging.turns at hline
    split at hline
    next =>
      split at hline
      next => exact hnewline line hline
      next =>
        rcases List.mem_append.mp hline with hline | hline
        · exact hnewline line (List.mem_of_mem_take hline)
        · exact newline_notin_summary k _ line hline
    next => exact newline_notin_summary k _ line hline
  · intro h
    rw [← h]
    exact hblock.turned hlines

/-- The code of `>>.`, and its block of two moves. -/
theorem blocks_merged_moves :
    Turned (unlines [".skip 30000".toList, "start:".toList, "MOV A, 2".toList, "ADD A, 1".toList,
      "ADD A, 1".toList, "PRINT [A]".toList]) [".skip 30000".toList, "start:".toList, "MOV A, 2".toList]
      ["ADD A, 1".toList, "ADD A, 1".toList] ["ADD A, 2".toList] := by
  have hsource : (getlines ">>.".toList).flatten.foldlM translate .start = .ok ⟨unlines [".skip 30000".toList,
    "start:".toList, "MOV A, 2".toList, "ADD A, 1".toList, "ADD A, 1".toList, "PRINT [A]".toList], 0, []⟩ := rfl
  have hblock : MaximalBlock .ptr [".skip 30000".toList, "start:".toList, "MOV A, 2".toList]
    ["ADD A, 1".toList, "ADD A, 1".toList] ["PRINT [A]".toList] := ⟨by decide, by decide, by decide, by decide⟩
  exact (blocks_merged _ _ hsource _ (.inl rfl) .ptr _ _ _ (by decide +kernel) hblock).mpr fun h =>
    absurd h (by decide)

/-- In the code of `+>>` the moves come while the cell is counted, and stay two lines; in
that of `+->>` they come when the count is zero again. -/
theorem block_copied :
    (∃ s above, (getlines "+>>".toList).flatten.foldlM translate .start = .ok s ∧
      getlines s.codeTmp = above ++ ["ADD A, 1".toList, "ADD A, 1".toList] ++ [] ∧
      MaximalBlock .ptr above ["ADD A, 1".toList, "ADD A, 1".toList] [] ∧
      applyOptimizations s.codeTmp = s.codeTmp ∧
      ¬ Turned s.codeTmp above ["ADD A, 1".toList, "ADD A, 1".toList]
        (summary .ptr (net ["ADD A, 1".toList, "ADD A, 1".toList]))) ∧
    ∃ s above, (getlines "+->>".toList).flatten.foldlM translate .start = .ok s ∧
      getlines s.codeTmp = above ++ ["ADD A, 1".toList, "ADD A, 1".toList] ++ [] ∧
      MaximalBlock .ptr above ["ADD A, 1".toList, "ADD A, 1".toList] [] ∧
      ¬ Turned s.codeTmp above ["ADD A, 1".toList, "ADD A, 1".toList]
        (summary .ptr (net ["ADD A, 1".toList, "ADD A, 1".toList])) := by
  constructor
  · refine ⟨⟨unlines [".skip 30000".toList, "start:".toList, "MOV A, 2".toList, "ADD [A], 1".toList,
      "ADD A, 1".toList, "ADD A, 1".toList], 0, []⟩, [".skip 30000".toList, "start:".toList, "MOV A, 2".toList,
      "ADD [A], 1".toList], rfl, by decide +kernel, ⟨by decide, by decide, by decide, by decide⟩,
      by decide +kernel, fun h => ?_⟩
    have hupTo := h.upTo
    revert hupTo
    decide +kernel
  · refine ⟨⟨unlines [".skip 30000".toList, "start:".toList, "MOV A, 2".toList, "ADD [A], 1".toList,
      "SUB [A], 1".toList, "ADD A, 1".toList, "ADD A, 1".toList], 0, []⟩, [".skip 30000".toList,
      "start:".toList, "MOV A, 2".toList, "ADD [A], 1".toList, "SUB [A], 1".toList], rfl, by decide +kernel,
      ⟨by decide, by decide, by decide, by decide⟩, fun h => ?_⟩
    have hupTo := h.upTo
    revert hupTo
    decide +kernel

end CustomIsaVm.Brainfvck
