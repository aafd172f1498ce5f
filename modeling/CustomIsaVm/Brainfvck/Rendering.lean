import Mathlib.Data.List.TakeWhile
import CustomIsaVm.Lib.Fold
import CustomIsaVm.Brainfvck.Loops

/-! The passes work on items.

`assembly` writes a list of items down as the text that the compiler works on. Read
through it, code generation emits items (`generate_items`), the first optimisation
merges them (`applyOptimizations_merged`) and the second replaces loops of them
(`applyLoopOptimizations_looped`). -/
namespace CustomIsaVm.Brainfvck
open Text Fold

/-! ### Items as text -/

def Place.text : Place → Str
  | a => "A".toList
  | b => "B".toList
  | c => "C".toList
  | cell => "[A]".toList

def Source.text : Source → Str
  | place p => p.text
  | num v => decimalInt v

def Operation.text : Operation → Str
  | mov => "MOV".toList
  | add => "ADD".toList
  | sub => "SUB".toList
  | mul => "MUL".toList

@[simp] theorem text_a : Place.text .a = "A".toList := rfl

@[simp] theorem text_b : Place.text .b = "B".toList := rfl

@[simp] theorem text_c : Place.text .c = "C".toList := rfl

@[simp] theorem text_cell : Place.text .cell = "[A]".toList := rfl

@[simp] theorem text_mov : Operation.text .mov = "MOV".toList := rfl

@[simp] theorem text_add : Operation.text .add = "ADD".toList := rfl

@[simp] theorem text_sub : Operation.text .sub = "SUB".toList := rfl

@[simp] theorem text_mul : Operation.text .mul = "MUL".toList := rfl

@[simp] theorem text_place (p : Place) : Source.text (.place p) = p.text := rfl

@[simp] theorem text_num (v : Int) : Source.text (.num v) = decimalInt v := rfl

/-- The labels of the two brackets. -/
def startPar (id : Nat) : Str := "start_par_".toList ++ decimal id

def closePar (id : Nat) : Str := "close_par_".toList ++ decimal id

theorem startPar_eq (id : Nat) : startPar id = "start_par_".toList ++ decimal id := rfl

theorem closePar_eq (id : Nat) : closePar id = "close_par_".toList ++ decimal id := rfl

def Item.lines : Item → List Str
  | op o d s => [o.text ++ " ".toList ++ d.text ++ ", ".toList ++ s.text]
  | print => ["PRINT [A]".toList]
  | input => ["INPUT [A]".toList]
  | halt => ["HALT".toList]
  | loopStart id => [startPar id ++ ":".toList, "CMP [A], 0".toList, "JE ".toList ++ closePar id]
  | loopEnd id => [closePar id ++ ":".toList, "CMP [A], 0".toList, "JNE ".toList ++ startPar id]

def allLines (items : List Item) : List Str := items.flatMap Item.lines

@[simp] theorem allLines_nil : allLines [] = [] := rfl

@[simp] theorem allLines_cons (x : Item) (xs : List Item) :
    allLines (x :: xs) = x.lines ++ allLines xs := rfl

@[simp] theorem allLines_append (xs ys : List Item) : allLines (xs ++ ys) = allLines xs ++ allLines ys := by
  simp [allLines]

/-- What stands before the items: the tape, and the entry point. -/
def preamble : List Str := [".skip 30000".toList, "start:".toList]

def assembly (items : List Item) : Str := unlines (preamble ++ allLines items)

theorem assembly_append (xs ys : List Item) :
    assembly (xs ++ ys) = assembly xs ++ unlines (allLines ys) := by
  rw [assembly, allLines_append, ← List.append_assoc, unlines_append]
  rfl

/-! ### Lines hold no newlines -/

theorem newline_notin_decimal (n : Nat) : '\n' ∉ decimal n := by
  intro h
  have := isDigit_of_mem_decimal h
  cases this

theorem newline_notin_decimalInt (v : Int) : '\n' ∉ decimalInt v := by
  unfold decimalInt
  split
  · simpa using newline_notin_decimal v.natAbs
  · exact newline_notin_decimal v.natAbs

theorem newline_notin_lines {x : Item} {line : Str} (h : line ∈ x.lines) : '\n' ∉ line := by
  have hplace : ∀ p : Place, '\n' ∉ p.text := by
    intro p
    cases p <;> decide
  have hsource : ∀ s : Source, '\n' ∉ s.text := by
    intro s
    cases s with
    | place p => exact hplace p
    | num v => exact newline_notin_decimalInt v
  have hop : ∀ o : Operation, '\n' ∉ o.text := by
    intro o
    cases o <;> decide
  cases x with
  | op o d s =>
    rw [Item.lines, List.mem_singleton] at h
    subst h
    simp [hop, hplace, hsource]
  | print => rw [List.mem_singleton.mp h]; decide
  | input => rw [List.mem_singleton.mp h]; decide
  | halt => rw [List.mem_singleton.mp h]; decide
  | loopStart id =>
    simp only [Item.lines, List.mem_cons, List.not_mem_nil, or_false] at h
    rcases h with rfl | rfl | rfl
    · simp [startPar_eq, newline_notin_decimal]
    · decide
    · simp [closePar_eq, newline_notin_decimal]
  | loopEnd id =>
    simp only [Item.lines, List.mem_cons, List.not_mem_nil, or_false] at h
    rcases h with rfl | rfl | rfl
    · simp [closePar_eq, newline_notin_decimal]
    · decide
    · simp [startPar_eq, newline_notin_decimal]

theorem getlines_assembly (items : List Item) : getlines (assembly items) = preamble ++ allLines items := by
  refine getlines_unlines _ fun line hline => ?_
  rcases List.mem_append.mp hline with h | h
  · have : ∀ line ∈ preamble, '\n' ∉ line := by decide
    exact this line h
  · obtain ⟨x, -, hx⟩ := List.mem_flatMap.mp h
    exact newline_notin_lines hx

/-! ### Code generation -/

/-- The loop over the source, in items. -/
structure Generated where
  items : List Item
  numberOfPar : Nat
  parStack : List Nat

namespace Generated

def start : Generated := ⟨[.op .mov .a (.num 2)], 0, []⟩

def add (g : Generated) (x : Item) : Generated := {g with items := g.items ++ [x]}

def step (g : Generated) (c : Char) : Option Generated :=
  match c with
  | '>' => some (g.add (.bump .a 1))
  | '<' => some (g.add (.bump .a (-1)))
  | '+' => some (g.add (.bump .cell 1))
  | '-' => some (g.add (.bump .cell (-1)))
  | '.' => some (g.add .print)
  | ',' => some (g.add .input)
  | '[' => some ⟨g.items ++ [.loopStart g.numberOfPar], g.numberOfPar + 1, g.numberOfPar :: g.parStack⟩
  | ']' => match g.parStack with
    | [] => none
    | id :: parStack => some ⟨g.items ++ [.loopEnd id], g.numberOfPar, parStack⟩
  | _ => some g

/-- The text built so far is these items. -/
structure Writes (g : Generated) (s : Codegen) : Prop where
  code : s.codeTmp = assembly g.items
  number : s.numberOfPar = g.numberOfPar
  stack : s.parStack = g.parStack

theorem start_writes : start.Writes .start := ⟨by decide, rfl, rfl⟩

theorem add_writes {g : Generated} {s : Codegen} (h : g.Writes s) {x : Item} {text : Str}
    (hx : unlines x.lines = text) : (g.add x).Writes (s.emit text) := by
  refine ⟨?_, h.number, h.stack⟩
  rw [add, assembly_append, ← h.code, allLines_cons, allLines_nil, List.append_nil, hx]
  rfl

theorem step_writes {g : Generated} {s s' : Codegen} {c : Char} (h : g.Writes s)
    (hs : translate s c = .ok s') : ∃ g', g.step c = some g' ∧ g'.Writes s' := by
  unfold translate at hs
  unfold step
  split at hs
  · cases hs; exact ⟨_, rfl, add_writes h (by decide)⟩
  · cases hs; exact ⟨_, rfl, add_writes h (by decide)⟩
  · cases hs; exact ⟨_, rfl, add_writes h (by decide)⟩
  · cases hs; exact ⟨_, rfl, add_writes h (by decide)⟩
  · cases hs; exact ⟨_, rfl, add_writes h (by decide)⟩
  · cases hs; exact ⟨_, rfl, add_writes h (by decide)⟩
  · cases hs
    refine ⟨_, rfl, ?_, by rw [← h.number]; rfl, by rw [← h.number, ← h.stack]; rfl⟩
    rw [assembly_append, ← h.code, ← h.number]
    simp [Codegen.emit, Item.lines, startPar_eq, closePar_eq]
  · cases hstack : s.parStack with
    | nil => rw [hstack] at hs; cases hs
    | cons id parStack =>
      rw [hstack] at hs
      cases hs
      rw [← h.stack, hstack]
      refine ⟨_, rfl, ?_, h.number, rfl⟩
      rw [assembly_append, ← h.code]
      simp [Codegen.emit, Item.lines, startPar_eq, closePar_eq]
  · cases hs
    refine ⟨g, ?_, h⟩
    simp_all

theorem Writes.run {text : Str} {g : Generated} {s s' : Codegen} (h : g.Writes s)
    (hs : text.foldlM translate s = .ok s') : ∃ g', text.foldlM step g = some g' ∧ g'.Writes s' := by
  induction text generalizing g s with
  | nil =>
    cases hs
    exact ⟨g, rfl, h⟩
  | cons c text ih =>
    obtain ⟨u, hu, hs⟩ := foldlM_cons_eq_ok.mp hs
    obtain ⟨g', hg', hw⟩ := step_writes h hu
    obtain ⟨g'', hfold, hw'⟩ := ih hw hs
    exact ⟨g'', by rw [List.foldlM_cons, hg']; exact hfold, hw'⟩

end Generated

/-- Newlines do not matter. -/
theorem generate_eq (source : Str) : generate source = (source.foldlM translate .start >>= fun s =>
    if s.parStack ≠ [] then .error .unmatchedOpen else .ok (s.emit "HALT\n".toList).codeTmp) := by
  have hnewline : ∀ s c, (decide (c ≠ '\n')) = false → translate s c = .ok s := by
    intro s c hc
    rw [decide_eq_false_iff_not, not_ne_iff] at hc
    subst hc
    rfl
  rw [generate, getlines_flatten, foldlM_filter hnewline]
  refine congrArg _ (funext fun s => ?_)
  split <;> rfl

/-- **Code generation writes items.** -/
theorem generate_items {source text : Str} (h : generate source = .ok text) :
    ∃ g, source.foldlM Generated.step .start = some g ∧ g.parStack = [] ∧
      text = assembly (g.items ++ [.halt]) := by
  rw [generate_eq] at h
  obtain ⟨s, hs, h⟩ := bind_eq_ok.mp h
  obtain ⟨g, hg, hwrites⟩ := Generated.start_writes.run hs
  refine ⟨g, hg, ?_⟩
  split at h
  · cases h
  next hstack =>
    rw [not_ne_iff, hwrites.stack] at hstack
    cases h
    refine ⟨hstack, ?_⟩
    rw [assembly_append, ← hwrites.code]
    rfl

/-! ### Emitted items -/

/-- Items that no pass adds up. -/
def Item.fixed : Item → Bool
  | op .mov .a (.num 2) | print | input | halt | loopStart _ | loopEnd _ => true
  | _ => false

/-- The items of generated code, with literals as `V` says. -/
inductive Emitted (V : Int → Prop) : Item → Prop
  | fixed {x : Item} (h : x.fixed = true) : Emitted V x
  | bump {d : Place} {v : Int} (hd : d = .a ∨ d = .cell) (hv : V v) : Emitted V (.bump d v)

/-- One more or one less. -/
def Unit (v : Int) : Prop := v = 1 ∨ v = -1

theorem Emitted.plain {V : Int → Prop} {x : Item} (h : Emitted V x) : x.plain = true := by
  cases h with
  | fixed h =>
    unfold Item.fixed at h
    split at h <;> first | rfl | cases h
  | bump hd => exact Item.plain_bump _ _ hd

theorem Generated.step_emitted {g g' : Generated} {c : Char} (h : g.step c = some g')
    (hg : ∀ x ∈ g.items, Emitted Unit x) : ∀ x ∈ g'.items, Emitted Unit x := by
  have hadd : ∀ {y}, Emitted Unit y → ∀ x ∈ g.items ++ [y], Emitted Unit x := by
    intro y hy x hx
    rcases List.mem_append.mp hx with hx | hx
    · exact hg x hx
    · rw [List.mem_singleton.mp hx]
      exact hy
  unfold step at h
  split at h
  · cases h; exact hadd (.bump (.inl rfl) (.inl rfl))
  · cases h; exact hadd (.bump (.inl rfl) (.inr rfl))
  · cases h; exact hadd (.bump (.inr rfl) (.inl rfl))
  · cases h; exact hadd (.bump (.inr rfl) (.inr rfl))
  · cases h; exact hadd (.fixed rfl)
  · cases h; exact hadd (.fixed rfl)
  · cases h; exact hadd (.fixed rfl)
  · split at h
    · cases h
    · cases h; exact hadd (.fixed rfl)
  · cases h; exact hg

/-! ### Merging -/

theorem mergeLine_copy (s : Merging) {c : Char} {line : Str} (hA : c ≠ 'A') (hS : c ≠ 'S') :
    mergeLine s (c :: line) = s.copy (c :: line) := by
  unfold mergeLine
  simp [List.isPrefixOf, Ne.symm hA, Ne.symm hS]

theorem fixed_lines {x : Item} (h : x.fixed = true) {line : Str} (hline : line ∈ x.lines) :
    ∃ c t, line = c :: t ∧ c ≠ 'A' ∧ c ≠ 'S' := by
  suffices hhead : ∃ c, line.head? = some c ∧ c ≠ 'A' ∧ c ≠ 'S' by
    obtain ⟨c, hc, hne⟩ := hhead
    obtain ⟨t, rfl⟩ := List.head?_eq_some_iff.mp hc
    exact ⟨c, t, rfl, hne⟩
  unfold Item.fixed at h
  split at h
  · rw [List.mem_singleton.mp hline]; exact ⟨'M', by decide, by decide, by decide⟩
  · rw [List.mem_singleton.mp hline]; exact ⟨'P', by decide, by decide, by decide⟩
  · rw [List.mem_singleton.mp hline]; exact ⟨'I', by decide, by decide, by decide⟩
  · rw [List.mem_singleton.mp hline]; exact ⟨'H', by decide, by decide, by decide⟩
  · simp only [Item.lines, List.mem_cons, List.not_mem_nil, or_false] at hline
    rcases hline with rfl | rfl | rfl
    · exact ⟨'s', by simp [startPar_eq], by decide, by decide⟩
    · exact ⟨'C', by decide, by decide, by decide⟩
    · exact ⟨'J', by simp, by decide, by decide⟩
  · simp only [Item.lines, List.mem_cons, List.not_mem_nil, or_false] at hline
    rcases hline with rfl | rfl | rfl
    · exact ⟨'c', by simp [closePar_eq], by decide, by decide⟩
    · exact ⟨'C', by decide, by decide, by decide⟩
    · exact ⟨'J', by simp, by decide, by decide⟩
  · cases h

/-- What is being added up, as the two flags say. -/
inductive Accumulates (s : Merging) : Place → List Int → Prop
  | none (d : Place) (hm : s.accumulatingMath = false) (hp : s.accumulatingPtr = false) :
      Accumulates s d []
  | math {vs : List Int} (hm : s.accumulatingMath = true) (hp : s.accumulatingPtr = false) :
      Accumulates s .cell vs
  | ptr {vs : List Int} (hm : s.accumulatingMath = false) (hp : s.accumulatingPtr = true) :
      Accumulates s .a vs

/-- The items `xs` have been read: all but a run at their end is written. -/
def Pending (xs : List Item) (s : Merging) : Prop :=
  ∃ done ys d vs, xs = done ++ vs.map (.bump d) ∧ Merged done ys ∧ s.optimizedCode = assembly ys ∧
    s.accumulatedValue = vs.sum ∧ Accumulates s d vs ∧ (d = .a ∨ d = .cell)

theorem unlines_bump_cell (v : Int) : unlines (allLines [.bump .cell v]) =
    if 0 < v then "ADD [A], ".toList ++ decimalInt v ++ "\n".toList
    else "SUB [A], ".toList ++ decimalInt (-v) ++ "\n".toList := by
  unfold Item.bump
  split <;> simp [Item.lines]

theorem unlines_bump_a (v : Int) : unlines (allLines [.bump .a v]) =
    if 0 < v then "ADD A, ".toList ++ decimalInt v ++ "\n".toList
    else "SUB A, ".toList ++ decimalInt (-v) ++ "\n".toList := by
  unfold Item.bump
  split <;> simp [Item.lines]

/-- After a flush everything read is written. -/
theorem Pending.flush {xs : List Item} {s : Merging} (h : Pending xs s) :
    ∃ ys d, Merged xs ys ∧ s.flush.optimizedCode = assembly ys ∧ s.flush.accumulatedValue = 0 ∧
      Accumulates s.flush d [] ∧ (d = .a ∨ d = .cell) := by
  obtain ⟨done, ys, d, vs, rfl, hmerged, hcode, hvalue, hacc, hd⟩ := h
  have hrun : Merged (done ++ vs.map (.bump d)) (ys ++ merged d vs.sum) := by
    have := hmerged.append (.run d vs hd .nil)
    simpa using this
  refine ⟨_, d, hrun, ?_⟩
  unfold Merging.flush
  by_cases hzero : vs.sum = 0
  · rw [hvalue, if_pos hzero, merged, if_pos hzero, List.append_nil]
    refine ⟨hcode, hvalue.trans hzero, ?_, hd⟩
    cases hacc with
    | none d hm hp => exact .none d hm hp
    | math hm hp => exact .math hm hp
    | ptr hm hp => exact .ptr hm hp
  · rw [hvalue, if_neg hzero, merged, if_neg hzero, assembly_append, hcode]
    refine ⟨?_, rfl, .none d rfl rfl, hd⟩
    cases hacc with
    | none => exact absurd rfl hzero
    | math hm hp => simp only [hm, if_true, unlines_bump_cell]
    | ptr hm hp => simp only [hm, hp, Bool.false_eq_true, if_false, if_true, unlines_bump_a]

theorem copy_flush (s : Merging) (line : Str) : (s.copy line).flush = s.copy line := by
  have h : s.flush.accumulatedValue = 0 := by
    unfold Merging.flush
    by_cases h : s.accumulatedValue = 0 <;> simp only [h, if_true, if_false]
  unfold Merging.copy
  rw [Merging.flush, if_pos h]

theorem foldl_copy (s : Merging) (line : Str) (more : List Str) :
    (line :: more).foldl Merging.copy s =
      {s.flush with optimizedCode := s.flush.optimizedCode ++ unlines (line :: more)} := by
  induction more generalizing s line with
  | nil => simp [Merging.copy]
  | cons next more ih =>
    rw [List.foldl_cons, ih, copy_flush]
    simp [Merging.copy]

/-- A copied item is written behind all that was read. -/
theorem Pending.copy {xs : List Item} {s : Merging} (h : Pending xs s) (x : Item) (hx : x.lines ≠ []) :
    Pending (xs ++ [x]) (x.lines.foldl Merging.copy s) := by
  obtain ⟨ys, d, hmerged, hcode, hvalue, hacc, hd⟩ := h.flush
  obtain ⟨line, more, hlines⟩ := List.exists_cons_of_ne_nil hx
  refine ⟨xs ++ [x], ys ++ [x], d, [], by simp, hmerged.append (.keep x .nil), ?_, ?_, ?_, hd⟩
  · rw [hlines, foldl_copy, assembly_append, hcode, allLines_cons, allLines_nil, List.append_nil, hlines]
  · rw [hlines, foldl_copy]
    exact hvalue
  · rw [hlines, foldl_copy]
    cases hacc with
    | none d hm hp => exact .none d hm hp
    | math hm hp => exact .math hm hp
    | ptr hm hp => exact .ptr hm hp

/-- An item that adds to a place is added to a run, or written if another is going on. -/
theorem Pending.bump {xs : List Item} {s : Merging} (h : Pending xs s) {d : Place} {v : Int} {line : Str}
    (hline : (Item.bump d v).lines = [line]) :
    (d = .cell → Pending (xs ++ [.bump d v]) (s.math line v)) ∧
      (d = .a → Pending (xs ++ [.bump d v]) (s.ptr line v)) := by
  have hcopy : Pending (xs ++ [.bump d v]) (s.copy line) := by
    have := h.copy (.bump d v) (by rw [hline]; exact List.cons_ne_nil _ _)
    rwa [hline] at this
  obtain ⟨done, ys, d', vs, rfl, hmerged, hcode, hvalue, hacc, hd⟩ := h
  constructor
  · rintro rfl
    unfold Merging.math
    cases hacc with
    | none d' hm hp =>
      simp only [hm, hp, Bool.not_false, Bool.and_self, if_true]
      exact ⟨done, ys, .cell, [v], by simp, hmerged, hcode, by simp [hvalue], .math rfl rfl, .inr rfl⟩
    | math hm hp =>
      simp only [hm, hp, Bool.not_true, Bool.false_and, Bool.false_eq_true, if_false, if_true]
      exact ⟨done, ys, .cell, vs ++ [v], by simp, hmerged, hcode, by simp [hvalue], .math rfl rfl, .inr rfl⟩
    | ptr hm hp =>
      simp only [hm, hp, Bool.not_true, Bool.and_false, Bool.false_eq_true, if_false]
      exact hcopy
  · rintro rfl
    unfold Merging.ptr
    cases hacc with
    | none d' hm hp =>
      simp only [hm, hp, Bool.not_false, Bool.and_self, if_true]
      exact ⟨done, ys, .a, [v], by simp, hmerged, hcode, by simp [hvalue], .ptr rfl rfl, .inl rfl⟩
    | math hm hp =>
      simp only [hm, hp, Bool.not_true, Bool.false_and, Bool.false_eq_true, if_false]
      exact hcopy
    | ptr hm hp =>
      simp only [hm, hp, Bool.not_true, Bool.and_false, Bool.false_eq_true, if_false, if_true]
      exact ⟨done, ys, .a, vs ++ [v], by simp, hmerged, hcode, by simp [hvalue], .ptr rfl rfl, .inl rfl⟩

theorem foldl_mergeLine_copy (s : Merging) {lines : List Str}
    (h : ∀ line ∈ lines, ∃ c t, line = c :: t ∧ c ≠ 'A' ∧ c ≠ 'S') :
    lines.foldl mergeLine s = lines.foldl Merging.copy s := by
  induction lines generalizing s with
  | nil => rfl
  | cons line lines ih =>
    obtain ⟨c, t, rfl, hA, hS⟩ := h line (List.mem_cons_self ..)
    rw [List.foldl_cons, List.foldl_cons, mergeLine_copy s hA hS]
    exact ih _ fun l hl => h l (List.mem_cons_of_mem _ hl)

theorem mergeLine_unit (s : Merging) :
    mergeLine s "ADD [A], 1".toList = s.math "ADD [A], 1".toList 1 ∧
      mergeLine s "SUB [A], 1".toList = s.math "SUB [A], 1".toList (-1) ∧
      mergeLine s "ADD A, 1".toList = s.ptr "ADD A, 1".toList 1 ∧
      mergeLine s "SUB A, 1".toList = s.ptr "SUB A, 1".toList (-1) := by
  unfold mergeLine
  refine ⟨?_, ?_, ?_, ?_⟩
  · rw [if_pos (by decide)]
  · rw [if_neg (by decide), if_pos (by decide)]
  · rw [if_neg (by decide), if_neg (by decide), if_pos (by decide)]
  · rw [if_neg (by decide), if_neg (by decide), if_neg (by decide), if_pos (by decide)]

theorem Pending.step {xs : List Item} {s : Merging} (h : Pending xs s) {x : Item} (hx : Emitted Unit x) :
    Pending (xs ++ [x]) (x.lines.foldl mergeLine s) := by
  cases hx with
  | fixed hfixed =>
    rw [foldl_mergeLine_copy s fun line => fixed_lines hfixed]
    refine h.copy x fun hnil => ?_
    cases x <;> cases hnil
  | @bump d v hd hv =>
    obtain ⟨haddCell, hsubCell, haddA, hsubA⟩ := mergeLine_unit s
    rcases hd with rfl | rfl <;> rcases hv with rfl | rfl
    · have hline : (Item.bump .a 1).lines = ["ADD A, 1".toList] := by decide
      have := (h.bump hline).2 rfl
      rwa [← haddA] at this
    · have hline : (Item.bump .a (-1)).lines = ["SUB A, 1".toList] := by decide
      have := (h.bump hline).2 rfl
      rwa [← hsubA] at this
    · have hline : (Item.bump .cell 1).lines = ["ADD [A], 1".toList] := by decide
      have := (h.bump hline).1 rfl
      rwa [← haddCell] at this
    · have hline : (Item.bump .cell (-1)).lines = ["SUB [A], 1".toList] := by decide
      have := (h.bump hline).1 rfl
      rwa [← hsubCell] at this

theorem Pending.run {xs zs : List Item} {s : Merging} (h : Pending xs s) (hz : ∀ z ∈ zs, Emitted Unit z) :
    Pending (xs ++ zs) ((allLines zs).foldl mergeLine s) := by
  induction zs generalizing xs s with
  | nil => simpa using h
  | cons z zs ih =>
    rw [allLines_cons, List.foldl_append]
    have := ih (h.step (hz z (List.mem_cons_self ..))) fun y hy => hz y (List.mem_cons_of_mem z hy)
    rwa [List.append_assoc] at this

theorem preamble_merging : preamble.foldl mergeLine .start = ⟨assembly [], false, false, 0⟩ := by
  have hmerge : ∀ s, mergeLine s ".skip 30000".toList = s.copy ".skip 30000".toList ∧
      mergeLine s "start:".toList = s.copy "start:".toList := by
    intro s
    unfold mergeLine
    constructor
    all_goals rw [if_neg (by decide), if_neg (by decide), if_neg (by decide), if_neg (by decide)]
  rw [preamble, List.foldl_cons, List.foldl_cons, List.foldl_nil, (hmerge _).1, (hmerge _).2]
  simp [Merging.copy, Merging.flush, Merging.start, assembly, preamble]

/-- **The first optimisation merges runs.** -/
theorem applyOptimizations_merged {xs : List Item} (h : ∀ x ∈ xs, Emitted Unit x) :
    ∃ ys, applyOptimizations (assembly xs) = assembly ys ∧ Merged xs ys := by
  have hstart : Pending [] ⟨assembly [], false, false, 0⟩ :=
    ⟨[], [], .a, [], rfl, .nil, rfl, rfl, .none .a rfl rfl, .inl rfl⟩
  obtain ⟨ys, -, hmerged, hcode, -⟩ := (hstart.run h).flush
  refine ⟨ys, ?_, hmerged⟩
  unfold applyOptimizations
  rw [getlines_assembly, List.foldl_append, preamble_merging]
  exact hcode

/-- Merging leaves literals that are not zero. -/
theorem Merged.emitted {xs ys : List Item} (h : Merged xs ys) (hx : ∀ x ∈ xs, Emitted Unit x) :
    ∀ y ∈ ys, Emitted (· ≠ 0) y := by
  induction h with
  | nil => simp
  | @keep x xs ys _ ih =>
    intro y hy
    rcases List.mem_cons.mp hy with rfl | hy
    · cases hx y (List.mem_cons_self ..) with
      | fixed h => exact .fixed h
      | @bump d v hd hv =>
        refine .bump hd ?_
        rcases hv with rfl | rfl <;> decide
    · exact ih (fun z hz => hx z (List.mem_cons_of_mem x hz)) y hy
  | @run d vs xs ys hd _ ih =>
    intro y hy
    rcases List.mem_append.mp hy with hy | hy
    · unfold merged at hy
      split at hy
      next => cases hy
      next hne =>
        rw [List.mem_singleton.mp hy]
        exact .bump hd hne
    · exact ih (fun z hz => hx z (List.mem_append_right _ hz)) y hy

/-! ### Replacing loops -/

/-- Everything that `try_parse_loop` has seen when it finds a loop. -/
theorem tryParseLoop_eq_some {lines : List Str} {loop : ParsedLoop} (h : tryParseLoop lines = some loop) :
    ∃ line more, parseParId line "start_par_".toList = some loop.id ∧
      lines = line :: "CMP [A], 0".toList ::
        ("JE ".toList ++ ("close_par_".toList ++ decimalInt loop.id)) ::
        (loop.body ++ ("close_par_".toList ++ decimalInt loop.id ++ ":".toList) :: "CMP [A], 0".toList ::
          ("JNE start_par_".toList ++ decimalInt loop.id) :: more) ∧
      loop.closeIdx = 3 + loop.body.length ∧
      ∀ l ∈ loop.body, l ≠ "close_par_".toList ++ decimalInt loop.id ++ ":".toList := by
  unfold tryParseLoop at h
  simp only [Option.bind_eq_bind, Option.bind_eq_some_iff] at h
  obtain ⟨line, hline, id, hid, h⟩ := h
  split at h
  next => cases h
  next hlong =>
  split at h
  next => cases h
  next hhead =>
  split at h
  next => cases h
  next hfull =>
  split at h
  next => cases h
  next hclose =>
  cases h
  rw [not_or, not_ne_iff, not_ne_iff] at hhead hclose
  obtain ⟨l0, l1, l2, tail, rfl⟩ : ∃ l0 l1 l2 tail, lines = l0 :: l1 :: l2 :: tail := by
    match lines, hlong with
    | l0 :: l1 :: l2 :: tail, _ => exact ⟨l0, l1, l2, tail, rfl⟩
    | [], h | [_], h | [_, _], h => simp at h
  simp only [List.getElem?_cons_zero, List.getElem?_cons_succ, Option.some.injEq] at hline hhead
  obtain ⟨rfl, rfl⟩ := hhead
  subst hline
  rw [List.drop_succ_cons, List.drop_succ_cons, List.drop_succ_cons, List.drop_zero] at hfull hclose ⊢
  generalize hclosing : "close_par_".toList ++ decimalInt id ++ ":".toList = closing at hfull hclose ⊢
  generalize hbody : tail.takeWhile (fun l => decide (l ≠ closing)) = body at hfull hclose ⊢
  have htail : tail = body ++ tail.dropWhile (fun l => decide (l ≠ closing)) := by
    rw [← hbody, List.takeWhile_append_dropWhile]
  have hnot : ∀ l ∈ body, l ≠ closing := by
    intro l hl
    rw [← hbody] at hl
    simpa using List.mem_takeWhile_imp hl
  obtain ⟨d0, d1, d2, more, hdrop⟩ : ∃ d0 d1 d2 more,
      tail.dropWhile (fun l => decide (l ≠ closing)) = d0 :: d1 :: d2 :: more := by
    have hlen := congrArg List.length htail
    rw [List.length_append] at hlen
    simp only [List.length_cons] at hfull
    match tail.dropWhile (fun l => decide (l ≠ closing)), hlen with
    | d0 :: d1 :: d2 :: more, _ => exact ⟨d0, d1, d2, more, rfl⟩
    | [], h | [_], h | [_, _], h => simp at h; omega
  have hd0 : d0 = closing := by
    have := List.head?_dropWhile_not (fun l => decide (l ≠ closing)) tail
    rw [hdrop] at this
    simpa using this
  rw [hdrop] at htail
  subst htail hd0
  have hget : ∀ (a b c : Str) (rest : List Str) k,
      (a :: b :: c :: (body ++ rest))[3 + body.length + k]? = rest[k]? := by
    intro a b c rest k
    rw [show 3 + body.length + k = body.length + k + 3 by omega]
    simp [List.getElem?_append_right]
  rw [hget, hget] at hclose
  simp only [List.getElem?_cons_zero, List.getElem?_cons_succ, Option.some.injEq] at hclose
  obtain ⟨rfl, rfl⟩ := hclose
  exact ⟨_, more, hid, by rw [← hclosing], rfl, fun l hl => hclosing ▸ hnot l hl⟩

theorem isPrefixOf_start_par {line : Str} (h : line.head? ≠ some 's') :
    "start_par_".toList.isPrefixOf line = false := by
  rw [Bool.eq_false_iff]
  intro hlead
  obtain ⟨t, ht⟩ := List.isPrefixOf_iff_prefix.mp hlead
  rw [← ht] at h
  simp at h

/-- Only the label of a loop can begin one. -/
theorem tryParseLoop_none {line : Str} (lines : List Str) (h : "start_par_".toList.isPrefixOf line = false) :
    tryParseLoop (line :: lines) = none := by
  cases hparse : tryParseLoop (line :: lines) with
  | none => rfl
  | some loop =>
    obtain ⟨line', more, hid, heq, -⟩ := tryParseLoop_eq_some hparse
    cases heq
    rw [parseParId, h, if_pos (by simp)] at hid
    cases hid

/-- A line where no loop begins, or none that is replaced, is kept. -/
theorem replaceLoops_kept {line : Str} {lines : List Str}
    (h : ∀ loop, tryParseLoop (line :: lines) = some loop → replacement loop.body = none) :
    replaceLoops 0 (line :: lines) = line :: replaceLoops 0 lines := by
  rw [replaceLoops]
  cases hparse : tryParseLoop (line :: lines) with
  | none => rfl
  | some loop =>
    dsimp only
    rw [h loop hparse]

theorem replaceLoops_copy {lines : List Str} (more : List Str)
    (h : ∀ line ∈ lines, "start_par_".toList.isPrefixOf line = false) :
    replaceLoops 0 (lines ++ more) = lines ++ replaceLoops 0 more := by
  induction lines with
  | nil => rfl
  | cons line lines ih =>
    have hnone := tryParseLoop_none (lines ++ more) (h line (List.mem_cons_self ..))
    have hkept : ∀ loop, tryParseLoop (line :: (lines ++ more)) = some loop → replacement loop.body = none := by
      intro loop hloop
      cases hnone.symm.trans hloop
    rw [List.cons_append, replaceLoops_kept hkept, ih fun l hl => h l (List.mem_cons_of_mem line hl)]
    rfl

theorem replaceLoops_skip (n : Nat) (lines : List Str) :
    replaceLoops n lines = replaceLoops 0 (lines.drop n) := by
  induction n generalizing lines with
  | zero => rfl
  | succ n ih =>
    cases lines with
    | nil => rfl
    | cons line lines =>
      rw [replaceLoops, ih]
      rfl

/-- A loop that is replaced is passed over. -/
theorem replaceLoops_found {line : Str} {lines out : List Str} {loop : ParsedLoop}
    (h : tryParseLoop (line :: lines) = some loop) (hout : replacement loop.body = some out) :
    replaceLoops 0 (line :: lines) = out ++ replaceLoops 0 (lines.drop (loop.closeIdx + 2)) := by
  rw [replaceLoops, h]
  dsimp only
  rw [hout]
  dsimp only
  rw [replaceLoops_skip]

/-- No other item has the label of a loop. -/
theorem head_lines {x : Item} (hx : ∀ id, x ≠ .loopStart id) {line : Str} (h : line ∈ x.lines) :
    line.head? ≠ some 's' := by
  cases x with
  | loopStart id => exact absurd rfl (hx id)
  | op o d s =>
    rw [Item.lines, List.mem_singleton] at h
    subst h
    cases o <;> simp
  | print => rw [List.mem_singleton.mp h]; decide
  | input => rw [List.mem_singleton.mp h]; decide
  | halt => rw [List.mem_singleton.mp h]; decide
  | loopEnd id =>
    simp only [Item.lines, List.mem_cons, List.not_mem_nil, or_false] at h
    rcases h with rfl | rfl | rfl
    · simp [closePar_eq]
    · decide
    · simp

/-- The closing label is that of the loop's end only. -/
theorem closing_mem {x : Item} {id : Nat} (h : closePar id ++ ":".toList ∈ x.lines) : x = .loopEnd id := by
  cases x with
  | loopEnd id' =>
    simp only [Item.lines, List.mem_cons, List.not_mem_nil, or_false] at h
    rcases h with h | h | h
    · rw [closePar_eq, closePar_eq, List.append_assoc, List.append_assoc] at h
      rw [decimal_injective (List.append_cancel_right (List.append_cancel_left h))]
    · simp [closePar_eq] at h
    · simp [closePar_eq] at h
  | op o d s =>
    rw [Item.lines, List.mem_singleton] at h
    cases o <;> simp [closePar_eq] at h
  | print => simp [Item.lines, closePar_eq] at h
  | input => simp [Item.lines, closePar_eq] at h
  | halt => simp [Item.lines, closePar_eq] at h
  | loopStart id' =>
    simp only [Item.lines, List.mem_cons, List.not_mem_nil, or_false] at h
    rcases h with h | h | h
    · simp [closePar_eq, startPar_eq] at h
    · simp [closePar_eq] at h
    · simp [closePar_eq] at h

/-- The lines up to the closing label are those of the items up to the loop's end. -/
theorem split_closing {id : Nat} {xs : List Item} {body more : List Str}
    (h : allLines xs = body ++ (closePar id ++ ":".toList) :: more)
    (hbody : ∀ l ∈ body, l ≠ closePar id ++ ":".toList) :
    ∃ items rest, xs = items ++ .loopEnd id :: rest ∧ body = allLines items := by
  induction xs generalizing body with
  | nil => simp at h
  | cons x xs ih =>
    by_cases hx : x = .loopEnd id
    · subst hx
      cases body with
      | nil => exact ⟨[], xs, rfl, rfl⟩
      | cons l body =>
        injection h with hl _
        exact absurd hl.symm (hbody l (List.mem_cons_self ..))
    · rw [allLines_cons] at h
      rcases List.append_eq_append_iff.mp h with ⟨body', rfl, hxs⟩ | ⟨lines', hlines, hmore⟩
      · obtain ⟨items, rest, rfl, rfl⟩ := ih hxs fun l hl => hbody l (List.mem_append_right _ hl)
        exact ⟨x :: items, rest, rfl, rfl⟩
      · cases lines' with
        | nil =>
          rw [List.append_nil] at hlines
          obtain ⟨items, rest, rfl, hnil⟩ := ih (show allLines xs = [] ++ _ from hmore.symm) (by simp)
          refine ⟨x :: items, rest, rfl, ?_⟩
          rw [allLines_cons, ← hnil, hlines, List.append_nil]
        | cons l lines' =>
          injection hmore with hl _
          refine absurd (closing_mem ?_) hx
          rw [hlines, hl]
          simp

/-! ### Bodies as text -/

theorem fromChars_decimalInt {v w : Int} (h : fromChars (decimalInt v) = some w) : w = v := by
  unfold decimalInt at h
  split at h
  · rw [fromChars_minus_decimal] at h
    split at h
    · cases h
    · cases h
      omega
  · rw [fromChars_decimal] at h
    split at h
    · cases h
    · cases h
      omega

theorem parseInstrArg_append (lead t : Str) : parseInstrArg (lead ++ t) lead = fromChars t := by
  simp [parseInstrArg]

theorem parseInstrArg_none {line lead : Str} (h : lead.isPrefixOf line = false) :
    parseInstrArg line lead = none := by
  simp [parseInstrArg, h]

/-- The line of an item that adds to a place. -/
theorem lines_bump {d : Place} (hd : d = .a ∨ d = .cell) (v : Int) : (Item.bump d v).lines =
    [if 0 < v then (if d = .a then "ADD A, ".toList else "ADD [A], ".toList) ++ decimalInt v
    else (if d = .a then "SUB A, ".toList else "SUB [A], ".toList) ++ decimalInt (-v)] := by
  unfold Item.bump
  rcases hd with rfl | rfl <;> split <;> simp [Item.lines]

/-- A line with one of the four beginnings has none of the others, and is analysed as the
item it begins like. -/
theorem analyzeLine_line (s : Int × List CellMod) (adds : Bool) {d : Place} (hd : d = .a ∨ d = .cell) (t : Str) :
    analyzeLine s ((if adds then (if d = .a then "ADD A, ".toList else "ADD [A], ".toList)
      else if d = .a then "SUB A, ".toList else "SUB [A], ".toList) ++ t) =
      (fromChars t).bind fun n => analyzeItem s (.op (if adds then .add else .sub) d (.num n)) := by
  cases adds <;> rcases hd with rfl | rfl
  all_goals
    simp only [reduceCtorEq, if_true, if_false, Bool.false_eq_true, analyzeLine]
    rw [parseInstrArg_append, parseInstrArg_none (by simp [List.isPrefixOf]),
      parseInstrArg_none (by simp [List.isPrefixOf]), parseInstrArg_none (by simp [List.isPrefixOf])]
    cases fromChars t <;> rfl

/-- A line that adds to a place is analysed as its item. -/
theorem analyzeLine_bump {d : Place} (hd : d = .a ∨ d = .cell) {v : Int} {line : Str}
    {s s' : Int × List CellMod} (hline : (Item.bump d v).lines = [line])
    (h : analyzeLine s line = some s') : analyzeItem s (.bump d v) = some s' := by
  rw [lines_bump hd, List.cons.injEq, and_iff_left rfl] at hline
  subst hline
  unfold Item.bump
  by_cases hpos : 0 < v
  · rw [if_pos hpos] at h ⊢
    obtain ⟨n, hn, hitem⟩ := Option.bind_eq_some_iff.mp ((analyzeLine_line s true hd _).symm.trans h)
    rwa [fromChars_decimalInt hn] at hitem
  · rw [if_neg hpos] at h ⊢
    obtain ⟨n, hn, hitem⟩ := Option.bind_eq_some_iff.mp ((analyzeLine_line s false hd _).symm.trans h)
    rwa [fromChars_decimalInt hn] at hitem

/-- A line of another item ends the analysis. -/
theorem analyzeLine_none (s : Int × List CellMod) {c : Char} {line : Str} (hA : c ≠ 'A') (hS : c ≠ 'S') :
    analyzeLine s (c :: line) = none := by
  unfold analyzeLine
  rw [parseInstrArg_none (by simp [List.isPrefixOf, Ne.symm hA]),
    parseInstrArg_none (by simp [List.isPrefixOf, Ne.symm hS]),
    parseInstrArg_none (by simp [List.isPrefixOf, Ne.symm hA]),
    parseInstrArg_none (by simp [List.isPrefixOf, Ne.symm hS])]

theorem lines_ne_nil (x : Item) : x.lines ≠ [] := by
  cases x <;> exact List.cons_ne_nil _ _

theorem analyze_lines {items : List Item} {s s' : Int × List CellMod}
    (hemitted : ∀ x ∈ items, Emitted (· ≠ 0) x) (h : (allLines items).foldlM analyzeLine s = some s') :
    items.foldlM analyzeItem s = some s' := by
  induction items generalizing s with
  | nil => exact h
  | cons x items ih =>
    have htail : ∀ y ∈ items, Emitted (· ≠ 0) y := fun y hy => hemitted y (List.mem_cons_of_mem x hy)
    rw [allLines_cons] at h
    cases hemitted x (List.mem_cons_self ..) with
    | fixed hfixed =>
      obtain ⟨line, more, hlines⟩ := List.exists_cons_of_ne_nil (lines_ne_nil x)
      obtain ⟨c, t, rfl, hA, hS⟩ := fixed_lines hfixed (hlines ▸ List.mem_cons_self : line ∈ x.lines)
      rw [hlines, List.cons_append, List.foldlM_cons, analyzeLine_none s hA hS] at h
      cases h
    | @bump d v hd hv =>
      have hlines := lines_bump hd v
      rw [hlines, List.singleton_append, List.foldlM_cons] at h
      obtain ⟨u, hu, h⟩ := Option.bind_eq_some_iff.mp h
      rw [List.foldlM_cons, analyzeLine_bump hd hlines hu]
      exact ih htail h

theorem movePtr_lines (d : Int) : movePtr d = allLines (merged .a d) := by
  unfold movePtr merged
  by_cases hzero : d = 0
  · simp [hzero]
  · rw [if_neg hzero, allLines_cons, lines_bump (.inl rfl), allLines_nil, List.append_nil]
    by_cases hpos : 0 < d
    · simp [hpos]
    · rw [if_neg hpos, if_pos (by omega), if_neg hpos, if_pos rfl]

theorem emitMods_lines (cur : Int) (mods : List CellMod) :
    emitMods cur mods = allLines (emitItems cur mods) := by
  induction mods generalizing cur with
  | nil => exact movePtr_lines _
  | cons m mods ih =>
    rw [emitMods, emitItems, allLines_append, allLines_append, ← ih, ← movePtr_lines]
    congr 2
    split
    · decide
    split
    · decide
    split <;> simp [Item.lines]

theorem loopItems_lines {others : List CellMod} (h : others ≠ []) :
    allLines (loopItems others) = emitMulReplacement others := by
  rw [loopItems, if_neg h, emitMulReplacement, emitMods_lines, allLines_append]
  congr 1

/-- The one item whose line is `SUB [A], 1`. -/
theorem clear_lines {x : Item} {more : List Str} (hx : Emitted (· ≠ 0) x)
    (h : x.lines = "SUB [A], 1".toList :: more) : x = .bump .cell (-1) := by
  cases hx with
  | fixed hfixed =>
    obtain ⟨c, t, heq, -, hS⟩ := fixed_lines hfixed (h ▸ List.mem_cons_self : "SUB [A], 1".toList ∈ x.lines)
    simp at heq
    exact absurd heq.1.symm hS
  | @bump d v hd hv =>
    have hanalyze := lines_bump hd v
    rw [h] at hanalyze
    injection hanalyze with hline
    have hval : analyzeLine (0, []) "SUB [A], 1".toList = some (0, [⟨0, -1⟩]) := by decide
    have hitem := analyzeLine_bump hd (by rw [lines_bump hd v, ← hline]) hval
    unfold Item.bump at hitem ⊢
    split at hitem
    all_goals rcases hd with rfl | rfl
    all_goals simp [analyzeItem, addMod] at hitem
    all_goals rw [hitem]

/-- The body of a loop that is replaced, and what it is replaced by. -/
theorem replacement_items {items : List Item} {out : List Str}
    (hemitted : ∀ x ∈ items, Emitted (· ≠ 0) x) (h : replacement (allLines items) = some out) :
    ∃ others, LoopBody items others ∧ out = allLines (loopItems others) := by
  unfold replacement at h
  split at h
  next hclear =>
    cases h
    cases items with
    | nil => cases hclear
    | cons x items =>
      obtain ⟨line, more, hlines⟩ := List.exists_cons_of_ne_nil (lines_ne_nil x)
      rw [allLines_cons, hlines] at hclear
      injection hclear with hline hmore
      rw [hline] at hlines
      obtain ⟨-, hrest⟩ := List.append_eq_nil_iff.mp hmore
      have hx := clear_lines (hemitted x (List.mem_cons_self ..)) hlines
      have hitems : items = [] := by
        cases items with
        | nil => rfl
        | cons y items => exact absurd (List.append_eq_nil_iff.mp hrest).1 (lines_ne_nil y)
      subst hx hitems
      exact ⟨[], ⟨[⟨0, -1⟩], ⟨0, -1⟩, by decide, by decide, by decide⟩, by decide⟩
  next =>
    split at h
    next =>
      obtain ⟨mods, hmods, rfl⟩ := Option.map_eq_some_iff.mp h
      obtain ⟨⟨ptr, all⟩, hfold, hmods⟩ := Option.bind_eq_some_iff.mp hmods
      unfold multMods at hmods
      split at hmods
      next => cases hmods
      next hptr =>
        rw [not_ne_iff] at hptr
        split at hmods
        next => cases hmods
        next self others htake =>
          split at hmods
          next => cases hmods
          next hself =>
            split at hmods
            next => cases hmods
            next hne =>
              cases hmods
              dsimp only at hptr htake
              subst hptr
              exact ⟨mods, ⟨all, self, analyze_lines hemitted hfold, htake, not_ne_iff.mp hself⟩,
                (loopItems_lines hne).symm⟩
    next => cases h

/-! ### The second optimisation -/

theorem parseParId_startPar {id : Nat} {n : Int}
    (h : parseParId (startPar id ++ ":".toList) "start_par_".toList = some n) : n = id := by
  unfold parseParId at h
  split at h
  next => cases h
  next =>
    rw [startPar_eq, List.append_assoc, List.drop_left] at h
    have hlen : ("start_par_".toList ++ (decimal id ++ ":".toList)).length - "start_par_".toList.length - 1 =
        (decimal id).length := by
      simp
    rw [hlen, List.take_left] at h
    rw [fromChars_decimal] at h
    split at h
    · cases h
    · cases h
      rfl

/-- A loop that is found in the lines is a loop in the items. -/
theorem found_loop {id : Nat} {xs : List Item} {loop : ParsedLoop}
    (h : tryParseLoop (allLines (.loopStart id :: xs)) = some loop) :
    ∃ items rest, xs = items ++ .loopEnd id :: rest ∧ loop.body = allLines items ∧
      loop.closeIdx = 3 + (allLines items).length := by
  obtain ⟨line, more, hid, hlines, hidx, hbody⟩ := tryParseLoop_eq_some h
  rw [allLines_cons, Item.lines] at hlines
  simp only [List.cons_append, List.nil_append, List.cons.injEq] at hlines
  obtain ⟨rfl, -, -, hlines⟩ := hlines
  have hn := parseParId_startPar hid
  have hclosing : "close_par_".toList ++ decimalInt loop.id ++ ":".toList = closePar id ++ ":".toList := by
    rw [hn, closePar_eq, decimalInt, if_neg (by omega)]
    rfl
  rw [hclosing] at hlines hbody
  obtain ⟨items, rest, rfl, hitems⟩ := split_closing hlines hbody
  exact ⟨items, rest, rfl, hitems, by rw [hidx, hitems]⟩

/-- Where `try_parse_loop` finds a loop of `p` and the loop is replaced, `q` has the
replacement. -/
def Found (p q : List Item) : Prop :=
  ∀ above id tail loop out, p = above ++ .loopStart id :: tail →
    tryParseLoop (allLines (.loopStart id :: tail)) = some loop → replacement loop.body = some out →
    ∃ body others rest, tail = body ++ .loopEnd id :: rest ∧ loop.body = allLines body ∧
      loop.closeIdx = 3 + (allLines body).length ∧ LoopBody body others ∧ out = allLines (loopItems others) ∧
      ∃ above' rest', q = above' ++ (loopItems others ++ rest')

/-- What is kept in front is no loop that is replaced. -/
theorem Found.keep {x : Item} {xs ys : List Item} (h : Found xs ys)
    (hx : ∀ id loop, x = .loopStart id → tryParseLoop (allLines (x :: xs)) = some loop →
      replacement loop.body = none) : Found (x :: xs) (x :: ys) := by
  intro above id tail loop out heq hparse hreplace
  cases above with
  | nil =>
    cases heq
    rw [hx id loop rfl hparse] at hreplace
    cases hreplace
  | cons y above =>
    cases heq
    obtain ⟨body, others, rest, htail, hbody, hidx, hloop, hout, above', rest', rfl⟩ :=
      h above id tail loop out rfl hparse hreplace
    exact ⟨body, others, rest, htail, hbody, hidx, hloop, hout, x :: above', rest', rfl⟩

/-- A loop that is replaced has no other in it. -/
theorem Found.loop {id : Nat} {body xs ys : List Item} {others : List CellMod} {loop : ParsedLoop}
    (h : Found xs ys) (hloop : LoopBody body others)
    (hparse : tryParseLoop (allLines (.loopStart id :: (body ++ .loopEnd id :: xs))) = some loop)
    (hbody : loop.body = allLines body) (hidx : loop.closeIdx = 3 + (allLines body).length)
    (hreplace : replacement loop.body = some (allLines (loopItems others))) :
    Found (.loopStart id :: (body ++ .loopEnd id :: xs)) (loopItems others ++ ys) := by
  intro above id' tail loop' out heq hparse' hreplace'
  cases above with
  | nil =>
    cases heq
    rw [hparse] at hparse'
    cases hparse'
    rw [hreplace] at hreplace'
    cases hreplace'
    exact ⟨body, others, xs, rfl, hbody, hidx, hloop, rfl, [], ys, rfl⟩
  | cons y above =>
    injection heq with hy heq
    rcases List.append_eq_append_iff.mp heq with ⟨between, rfl, hxs⟩ | ⟨between, rfl, htail⟩
    · cases between with
      | nil => cases hxs
      | cons z between =>
        injection hxs with hz hxs
        obtain ⟨body', others', rest, htail, hbody', hidx', hloop', hout, above', rest', rfl⟩ :=
          h between id' tail loop' out hxs hparse' hreplace'
        exact ⟨body', others', rest, htail, hbody', hidx', hloop', hout, loopItems others ++ above', rest',
          by simp⟩
    · cases between with
      | nil => cases htail
      | cons z between =>
        injection htail with hz htail
        have hstart : Item.loopStart id' ∉ above ++ z :: between := hloop.notin rfl
        exact absurd (by simp [hz]) hstart

/-- The lines of a loop's beginning behind its label begin no loop. -/
theorem replaceLoops_loopStart {id : Nat} {xs : List Item}
    (h : ∀ loop, tryParseLoop (allLines (.loopStart id :: xs)) = some loop → replacement loop.body = none) :
    replaceLoops 0 (allLines (.loopStart id :: xs)) =
      (Item.loopStart id).lines ++ replaceLoops 0 (allLines xs) := by
  have hrest : ∀ line ∈ ["CMP [A], 0".toList, "JE ".toList ++ closePar id],
      "start_par_".toList.isPrefixOf line = false := by
    intro line hline
    apply isPrefixOf_start_par
    simp only [List.mem_cons, List.not_mem_nil, or_false] at hline
    rcases hline with rfl | rfl
    · decide
    · simp
  have hcopy := replaceLoops_copy (allLines xs) hrest
  have hcons : allLines (.loopStart id :: xs) = (startPar id ++ ":".toList) ::
      (["CMP [A], 0".toList, "JE ".toList ++ closePar id] ++ allLines xs) := rfl
  rw [hcons] at h ⊢
  rw [replaceLoops_kept h, hcopy]
  rfl

theorem replaceLoops_loop {id : Nat} {items rest : List Item} {loop : ParsedLoop} {out : List Str}
    (hparse : tryParseLoop (allLines (.loopStart id :: (items ++ .loopEnd id :: rest))) = some loop)
    (hreplace : replacement loop.body = some out) (hidx : loop.closeIdx = 3 + (allLines items).length) :
    replaceLoops 0 (allLines (.loopStart id :: (items ++ .loopEnd id :: rest))) =
      out ++ replaceLoops 0 (allLines rest) := by
  have hdrop : (["CMP [A], 0".toList, "JE ".toList ++ closePar id] ++
      allLines (items ++ Item.loopEnd id :: rest)).drop (3 + (allLines items).length + 2) = allLines rest := by
    rw [allLines_append, allLines_cons, ← List.append_assoc, ← List.append_assoc]
    exact List.drop_left' (by simp [Item.lines]; omega)
  refine (replaceLoops_found hparse hreplace).trans ?_
  rw [hidx]
  exact congrArg (out ++ replaceLoops 0 ·) hdrop

theorem replaceLoops_looped {xs : List Item} (h : ∀ x ∈ xs, Emitted (· ≠ 0) x) :
    ∃ ys, replaceLoops 0 (allLines xs) = allLines ys ∧ Looped xs ys ∧ Found xs ys := by
  induction hn : xs.length using Nat.strongRecOn generalizing xs with
  | _ n ih =>
    cases xs with
    | nil =>
      refine ⟨[], rfl, .nil, fun above id tail loop out heq => ?_⟩
      cases above <;> cases heq
    | cons x xs =>
      have htail : ∀ y ∈ xs, Emitted (· ≠ 0) y := fun y hy => h y (List.mem_cons_of_mem x hy)
      obtain ⟨ys, hys, hlooped, hfound⟩ := ih xs.length (by rw [← hn]; simp) htail rfl
      -- an item that is kept is copied line by line
      have hkeep : replaceLoops 0 (allLines (x :: xs)) = x.lines ++ replaceLoops 0 (allLines xs) →
          (∀ id loop, x = .loopStart id → tryParseLoop (allLines (x :: xs)) = some loop →
            replacement loop.body = none) →
          ∃ ys, replaceLoops 0 (allLines (x :: xs)) = allLines ys ∧ Looped (x :: xs) ys ∧ Found (x :: xs) ys :=
        fun heq hx => ⟨x :: ys, by rw [heq, hys, allLines_cons], .keep x hlooped, hfound.keep hx⟩
      by_cases hstart : ∃ id, x = .loopStart id
      · obtain ⟨id, rfl⟩ := hstart
        by_cases hreplaced : ∃ loop out, tryParseLoop (allLines (.loopStart id :: xs)) = some loop ∧
            replacement loop.body = some out
        · obtain ⟨loop, out, hparse, hreplace⟩ := hreplaced
          obtain ⟨items, rest, rfl, hbody, hidx⟩ := found_loop hparse
          have hitems : ∀ y ∈ items, Emitted (· ≠ 0) y := fun y hy =>
            htail y (List.mem_append_left _ hy)
          obtain ⟨others, hloop, rfl⟩ := replacement_items hitems (hbody ▸ hreplace)
          obtain ⟨zs, hzs, hrestLooped, hrestFound⟩ := ih rest.length
            (by rw [← hn]; simp; omega)
            (fun y hy => htail y (List.mem_append_right _ (List.mem_cons_of_mem _ hy))) rfl
          refine ⟨loopItems others ++ zs, ?_, .loop id hloop hrestLooped,
            hrestFound.loop hloop hparse hbody hidx hreplace⟩
          rw [replaceLoops_loop hparse hreplace hidx, hzs, allLines_append]
        · have hnone : ∀ loop, tryParseLoop (allLines (.loopStart id :: xs)) = some loop →
              replacement loop.body = none := fun loop hparse =>
            Option.eq_none_iff_forall_ne_some.mpr fun out hout => hreplaced ⟨loop, out, hparse, hout⟩
          exact hkeep (replaceLoops_loopStart hnone) fun _ loop _ hparse => hnone loop hparse
      · refine hkeep ?_ fun id _ heq => absurd ⟨id, heq⟩ hstart
        rw [allLines_cons]
        exact replaceLoops_copy _ fun line hline =>
          isPrefixOf_start_par (head_lines (fun id heq => hstart ⟨id, heq⟩) hline)

/-- **The second optimisation replaces loops.** -/
theorem applyLoopOptimizations_looped {xs : List Item} (h : ∀ x ∈ xs, Emitted (· ≠ 0) x) :
    ∃ ys, applyLoopOptimizations (assembly xs) = assembly ys ∧ Looped xs ys ∧ Found xs ys := by
  obtain ⟨ys, hys, hlooped⟩ := replaceLoops_looped h
  refine ⟨ys, ?_, hlooped⟩
  have hpreamble : ∀ line ∈ preamble, "start_par_".toList.isPrefixOf line = false := by decide
  rw [applyLoopOptimizations, getlines_assembly, replaceLoops_copy _ hpreamble, hys, assembly]

end CustomIsaVm.Brainfvck
