import CustomIsaVm.Brainfvck.Confinement

/-! Replacing loops, on the machine.

Where `try_parse_loop` finds a loop and the loop is replaced, the loop run on its own
halts from every state, and so does what replaces it, with the same register A and the
same RAM (`SameBlock`). In the whole text the rest stays, and the two images behave
alike on every tape and input: `loops_rewritten`. Both texts have literals of one byte. -/
namespace CustomIsaVm.Brainfvck
open Text Fold Assembler Exec

/-! ### Where a loop begins -/

/-- A line that begins a loop is the first of its items. -/
theorem start_line {items : List Item} {i : Nat} {line : Str} {more : List Str}
    (h : (allLines items).drop i = line :: more) (hline : "start_par_".toList.isPrefixOf line = true) :
    ∃ above id tail, items = above ++ .loopStart id :: tail ∧
      line :: more = allLines (.loopStart id :: tail) := by
  induction items generalizing i with
  | nil => simp at h
  | cons x items ih =>
    rw [allLines_cons, List.drop_append] at h
    by_cases hi : x.lines.length ≤ i
    · rw [List.drop_of_length_le hi, List.nil_append] at h
      obtain ⟨above, id, tail, rfl, htail⟩ := ih h
      exact ⟨x :: above, id, tail, rfl, htail⟩
    · have hzero : i - x.lines.length = 0 := by omega
      rw [hzero, List.drop_zero] at h
      have hmem : line ∈ x.lines := by
        refine List.mem_of_mem_drop (i := i) ?_
        cases hdrop : x.lines.drop i with
        | nil =>
          have := List.drop_eq_nil_iff.mp hdrop
          omega
        | cons l ls =>
          rw [hdrop, List.cons_append] at h
          injection h with hl _
          rw [hl]
          exact List.mem_cons_self ..
      by_cases hx : ∃ id, x = .loopStart id
      · obtain ⟨id, rfl⟩ := hx
        -- of the three lines the first only has the label
        match i with
        | 0 => exact ⟨[], id, items, rfl, h.symm⟩
        | 1 =>
          cases h
          cases hline
        | 2 =>
          cases h
          rw [isPrefixOf_start_par (by simp)] at hline
          cases hline
        | i + 3 => exact absurd (Nat.le_add_left 3 i) hi
      · rw [isPrefixOf_start_par (head_lines (fun id heq => hx ⟨id, heq⟩) hmem)] at hline
        cases hline

/-- A loop that is found in a text is a loop of its items. -/
theorem found_line {items : List Item} {i : Nat} {loop : ParsedLoop}
    (h : tryParseLoop ((getlines (assembly items)).drop i) = some loop) :
    ∃ above id tail, items = above ++ .loopStart id :: tail ∧
      (getlines (assembly items)).drop i = allLines (.loopStart id :: tail) := by
  obtain ⟨line, more, hid, hlines, -⟩ := tryParseLoop_eq_some h
  have hline : "start_par_".toList.isPrefixOf line = true := by
    by_contra hnot
    rw [parseParId, Bool.eq_false_iff.mpr hnot, if_pos (by simp)] at hid
    cases hid
  rw [getlines_assembly] at hlines ⊢
  rcases i with _ | _ | i
  · cases hlines
  · injection hlines with hhead
    rw [← hhead] at hline
    cases hline
  · obtain ⟨above, id, tail, hitems, htail⟩ := start_line (i := i) hlines hline
    exact ⟨above, id, tail, hitems, hlines.trans htail⟩

/-! ### Blocks on their own -/

/-- The image of `prog` is in the segment, PC at its first item. -/
def AtStart (prog : List Item) (m : Machine) : Prop := ∃ s, At prog s 0 m ∧ s.rest = prog

/-- The two machines have the same register A, and the same on their tapes. -/
structure Agree (m n : Machine) : Prop where
  a : n.registers 0 = m.registers 0
  tape : ∀ x : MemCell,
    n.ram (n.proc.firstSector.toNat + x.toNat) = m.ram (m.proc.firstSector.toNat + x.toNat)

/-- The run from `m` halts in `m'`. It has written to the tape only, and read and printed
nothing. -/
structure Finishes (m m' : Machine) : Prop where
  ends : Machine.system.Ends m .halted m'
  onTape : OnTape m m'
  cin : m'.cin = m.cin
  cout : m'.cout = m.cout

/-- Run on their own, both blocks halt from every state, and leave A and the RAM alike. -/
structure SameBlock (old new : List Item) : Prop where
  oldHalts : ∀ m, AtStart (old ++ [.halt]) m → ∃ m', Finishes m m'
  newHalts : ∀ n, AtStart (new ++ [.halt]) n → ∃ n', Finishes n n'
  same : ∀ m n m' n', AtStart (old ++ [.halt]) m → AtStart (new ++ [.halt]) n → Agree m n →
    Finishes m m' → Finishes n n' → Agree m' n'

/-- A narrow program whose items run to its `HALT`. -/
theorem finishes {prog : List Item} {s s' : Code} {m : Machine} (h : At prog s 0 m) (hnarrow : Narrow prog)
    (hs : s.rest <:+ prog) (hrun : (Code.system prog).Reaches s s') {rest : List Item}
    (hrest : s'.rest = .halt :: rest) (hcin : s'.cin = s.cin) (hcout : s'.cout = s.cout) :
    ∃ m', Finishes m m' ∧ Shows s' m' := by
  obtain ⟨m₁, hm₁, hon, hat⟩ := h.reaches hrun (hnarrow.all_faithful hs)
  obtain ⟨m', hm', hon', hstopped, hshows, -⟩ := hat.next_halt hrest
  refine ⟨m', ⟨⟨hm₁.trans (.single hm'), next_stopped hstopped⟩, hon.trans hon', ?_, ?_⟩, hshows⟩
  · rw [hshows.cin, hcin, h.shows.cin]
  · rw [hshows.cout, hcout, h.shows.cout]

/-- What a loop makes of the tape: its cell is spent, and `others` are added that often. -/
def spent (a : MemCell) (tape : MemCell → MemCell) (others : List CellMod) (x : MemCell) : MemCell :=
  if x = a then 0 else tape x + tape a * delta a x others

/-- The run from `m` halts, having done what a loop does. -/
structure Spends (others : List CellMod) (m m' : Machine) : Prop extends Finishes m m' where
  a : m'.registers 0 = m.registers 0
  tape : ∀ x : MemCell, m'.ram (m'.proc.firstSector.toNat + x.toNat) =
    spent (m.registers 0) (fun y => m.ram (m.proc.firstSector.toNat + y.toNat)) others x

theorem spends {prog : List Item} (hnarrow : Narrow prog) {others : List CellMod}
    (hprog : ∀ s : Code, s.rest = prog → ∃ s', (Code.system prog).Reaches s s' ∧ s'.rest = [.halt] ∧
      s'.Same (s.afterLoop others)) {m : Machine} (h : AtStart prog m) : ∃ m', Spends others m m' := by
  obtain ⟨s, hat, hrest⟩ := h
  obtain ⟨s', hrun, hrest', hsame⟩ := hprog s hrest
  obtain ⟨m', hfinishes, hshows⟩ :=
    finishes hat hnarrow (hrest ▸ List.suffix_refl prog) hrun hrest' hsame.cin hsame.cout
  refine ⟨m', hfinishes, by rw [hshows.a, hsame.a, hat.shows.a]; rfl, fun x => ?_⟩
  have htape : (fun y : MemCell => m.ram (m.proc.firstSector.toNat + y.toNat)) = s.mem := funext hat.shows.mem
  rw [hshows.mem, hsame.mem, hat.shows.a, htape]
  rfl

/-- Blocks that do what one loop does are the same. -/
theorem sameBlock_of_spends {old new : List Item} (others : List CellMod)
    (hold : ∀ m, AtStart (old ++ [.halt]) m → ∃ m', Spends others m m')
    (hnew : ∀ n, AtStart (new ++ [.halt]) n → ∃ n', Spends others n n') : SameBlock old new where
  oldHalts m hm := by
    obtain ⟨m', hm'⟩ := hold m hm
    exact ⟨m', hm'.toFinishes⟩
  newHalts n hn := by
    obtain ⟨n', hn'⟩ := hnew n hn
    exact ⟨n', hn'.toFinishes⟩
  same m n m' n' hm hn hagree hfm hfn := by
    obtain ⟨m₁, hm₁⟩ := hold m hm
    obtain ⟨n₁, hn₁⟩ := hnew n hn
    -- a run halts in one state only
    cases (hm₁.ends.unique hfm.ends).2
    cases (hn₁.ends.unique hfn.ends).2
    refine ⟨by rw [hm₁.a, hn₁.a, hagree.a], fun x => ?_⟩
    rw [hm₁.tape, hn₁.tape, hagree.a, funext hagree.tape]

/-- A program of a loop alone. -/
theorem LoopBody.narrow {body : List Item} {others : List CellMod} (h : LoopBody body others) (id : Nat)
    (hbody : ∀ x ∈ body, x.Byte) : Narrow (.loopStart id :: (body ++ .loopEnd id :: [.halt])) := by
  have hbrackets : ∀ x ∈ body, x.isBracket = false := fun x hx =>
    Bool.eq_false_iff.mpr fun hb => h.notin hb hx
  have hcases : ∀ x ∈ Item.loopStart id :: (body ++ .loopEnd id :: [.halt]),
      x = .loopStart id ∨ x ∈ body ∨ x = .loopEnd id ∨ x = .halt := by
    intro x hx
    simpa using hx
  refine ⟨fun x hx => ?_, ⟨.loopStart id :: (body ++ [.loopEnd id]), by simp, by simp [h.no_halt]⟩, ?_,
    fun x hx hb => ?_⟩
  · rcases hcases x hx with rfl | hx | rfl | rfl
    · trivial
    · exact hbody x hx
    · trivial
    · trivial
  · have hnone : body.filter Item.isBracket = [] :=
      List.filter_eq_nil_iff.mpr fun x hx => by simp [hbrackets x hx]
    simp [UniqueBrackets, List.filter_cons, Item.isBracket, hnone]
  · rcases hcases x hx with rfl | hx | rfl | rfl
    · simp [Item.partner]
    · rw [hbrackets x hx] at hb
      cases hb
    · simp [Item.partner]
    · cases hb

/-- A program of a replacement alone. -/
theorem narrow_loopItems {others : List CellMod} (hitems : ∀ x ∈ loopItems others, x.Byte) :
    Narrow (loopItems others ++ [.halt]) := by
  have hop : ∀ x ∈ loopItems others ++ [.halt], x.isBracket = false := by
    intro x hx
    rcases List.mem_append.mp hx with hx | hx
    · obtain ⟨o, d, src, rfl⟩ := loopItems_op hx
      rfl
    · rw [List.mem_singleton.mp hx]
      rfl
  refine ⟨fun x hx => ?_, ⟨_, rfl, fun hx => ?_⟩, ?_, fun x hx hb => ?_⟩
  · rcases List.mem_append.mp hx with hx | hx
    · exact hitems x hx
    · rw [List.mem_singleton.mp hx]
      trivial
  · obtain ⟨o, d, src, heq⟩ := loopItems_op hx
    cases heq
  · rw [UniqueBrackets, List.filter_eq_nil_iff.mpr fun x hx => by simp [hop x hx]]
    exact List.nodup_nil
  · rw [hop x hx] at hb
    cases hb

/-- **A loop and its replacement are the same block.** -/
theorem LoopBody.sameBlock {body : List Item} {others : List CellMod} (h : LoopBody body others) (id : Nat)
    (hbody : ∀ x ∈ body, x.Byte) (hitems : ∀ x ∈ loopItems others, x.Byte) :
    SameBlock (.loopStart id :: (body ++ [.loopEnd id])) (loopItems others) := by
  have helse : Elsewhere others := loopItems_elsewhere h.offset fun x hx => wide_of_byte (hitems x hx)
  refine sameBlock_of_spends others (fun m hm => ?_) fun n hn => ?_
  · rw [List.cons_append, List.append_assoc, List.singleton_append] at hm
    have hnarrow := h.narrow id hbody
    refine spends hnarrow (fun s hs => ?_) hm
    obtain ⟨hstart, hend⟩ := loop_seek hnarrow.brackets.unique (List.suffix_refl _)
    exact ⟨_, (Code.loop_progress h helse hstart hend s hs).reaches, rfl, rfl, rfl, rfl, rfl⟩
  · refine spends (narrow_loopItems hitems) (fun s hs => ?_) hn
    obtain ⟨s', hs', hrest, hsame⟩ := Code.loopItems_progress hs helse
    exact ⟨s', hs'.reaches, hrest, hsame⟩

/-! ### The whole text -/

/-- The two images run alike from any tape. -/
theorem Stages.same_machines {source : Str} {xs ys zs : List Item} (h : Stages source xs ys zs)
    (hys : Narrow ys) (hzs : Narrow zs) {m n : Machine} (hm : AtStart ys m) (hn : AtStart zs n)
    (htape : ∀ x : MemCell,
      n.ram (n.proc.firstSector.toNat + x.toNat) = m.ram (m.proc.firstSector.toNat + x.toNat))
    (hcin : n.cin = m.cin) (hcout : n.cout = m.cout) :
    System.SameBehaviour Machine.system m Machine.system n := by
  obtain ⟨s, hs, hsrest⟩ := hm
  obtain ⟨t, ht, htrest⟩ := hn
  have hsame := (machine_simulation ys).same ⟨hs, hys.all_faithful (hsrest ▸ List.suffix_refl ys)⟩
  have hfaithful := hzs.all_faithful (s := t) (htrest ▸ List.suffix_refl zs)
  have hsame' := (machine_simulation zs).same ⟨ht, hfaithful⟩
  refine hsame.symm.trans ((h.meet hsrest htrest (funext fun x => ?_) ?_ ?_ hfaithful).trans hsame')
  · rw [← hs.shows.mem, ← ht.shows.mem, htape]
  · rw [← hs.shows.cin, ← ht.shows.cin, hcin]
  · rw [← hs.shows.cout, ← ht.shows.cout, hcout]

/-- **Loop rewriting preserves meaning.** Each loop that is found and replaced halts on its
own from every state, and its replacement leaves A and the RAM as it does; and the whole
text, with all of them replaced, behaves as before on every tape and input. -/
theorem loops_rewritten (source code : Str) (b₁ b₂ : List Opcode) (hcode : generate source = .ok code)
    (h₁ : asmToOpcodes (applyOptimizations code) = .ok b₁)
    (h₂ : asmToOpcodes (applyLoopOptimizations (applyOptimizations code)) = .ok b₂)
    (hnarrow₁ : narrowText (applyOptimizations code) = true)
    (hnarrow₂ : narrowText (applyLoopOptimizations (applyOptimizations code)) = true) :
    (∀ i loop out, tryParseLoop ((getlines (applyOptimizations code)).drop i) = some loop →
      replacement loop.body = some out → ∃ old new before behind,
        ((getlines (applyOptimizations code)).drop i).take (loop.closeIdx + 3) = allLines old ∧
        out = allLines new ∧
        getlines (applyLoopOptimizations (applyOptimizations code)) = before ++ (out ++ behind) ∧
        SameBlock old new) ∧
    ∃ ys zs, b₁ = image ys ∧ b₂ = image zs ∧ ∀ m n, AtStart ys m → AtStart zs n →
      (∀ x : MemCell,
        n.ram (n.proc.firstSector.toNat + x.toNat) = m.ram (m.proc.firstSector.toNat + x.toNat)) →
      n.cin = m.cin → n.cout = m.cout → System.SameBehaviour Machine.system m Machine.system n := by
  obtain ⟨xs, ys, zs, hstages, hfound⟩ := stages_found (balanced_of_generate hcode)
  cases hstages.generated.symm.trans hcode
  rw [hstages.optimized] at h₁ h₂ hnarrow₁ hnarrow₂ ⊢
  rw [hstages.replaced] at h₂ hnarrow₂ ⊢
  obtain ⟨hfits₁, rfl⟩ := assembled_items hstages.brackets_merged h₁
  obtain ⟨hfits₂, rfl⟩ := assembled_items hstages.brackets_replaced h₂
  have hys := hstages.narrow_merged hfits₁ hnarrow₁
  have hzs := hstages.narrow hfits₂ hnarrow₂
  refine ⟨fun i loop out hparse hreplace => ?_, ys, zs, rfl, rfl, fun m n => hstages.same_machines hys hzs⟩
  obtain ⟨above, id, tail, rfl, hlines⟩ := found_line hparse
  rw [hlines] at hparse ⊢
  obtain ⟨body, others, rest, rfl, hbody, hidx, hloop, rfl, above', rest', rfl⟩ :=
    hfound above id tail loop out rfl hparse hreplace
  refine ⟨.loopStart id :: (body ++ [.loopEnd id]), loopItems others, preamble ++ allLines above', allLines rest',
    ?_, rfl, by rw [getlines_assembly]; simp, hloop.sameBlock id (fun x hx => hys.byte x (by simp [hx]))
      fun x hx => hzs.byte x (by simp [hx])⟩
  have hsplit : allLines (.loopStart id :: (body ++ .loopEnd id :: rest)) =
      allLines (.loopStart id :: (body ++ [.loopEnd id])) ++ allLines rest := by simp
  rw [hsplit]
  exact List.take_left' (by simp [hidx, Item.lines]; omega)

/-- The items of `[->++<]`: as generated, with runs merged, and with the loop replaced. -/
def doubling : List Item :=
  [.op .mov .a (.num 2), .loopStart 0, .op .sub .cell (.num 1), .op .add .a (.num 1), .op .add .cell (.num 1),
    .op .add .cell (.num 1), .op .sub .a (.num 1), .loopEnd 0, .halt]

def doublingMerged : List Item :=
  [.op .mov .a (.num 2), .loopStart 0, .op .sub .cell (.num 1), .op .add .a (.num 1), .op .add .cell (.num 2),
    .op .sub .a (.num 1), .loopEnd 0, .halt]

def doubled : List Item :=
  [.op .mov .a (.num 2), .op .mov .b (.place .cell), .op .mov .cell (.num 0), .op .add .a (.num 1),
    .op .mul .b (.num 2), .op .add .cell (.place .b), .op .sub .a (.num 1), .halt]

theorem loops_rewritten_doubling : ∃ old new,
    allLines old = ["start_par_0:".toList, "CMP [A], 0".toList, "JE close_par_0".toList, "SUB [A], 1".toList,
      "ADD A, 1".toList, "ADD [A], 2".toList, "SUB A, 1".toList, "close_par_0:".toList, "CMP [A], 0".toList,
      "JNE start_par_0".toList] ∧
    allLines new = ["MOV B, [A]".toList, "MOV [A], 0".toList, "ADD A, 1".toList, "MUL B, 2".toList,
      "ADD [A], B".toList, "SUB A, 1".toList] ∧ SameBlock old new := by
  have hgenerate : generate "[->++<]".toList = .ok (assembly doubling) := by decide +kernel
  have hmerged : applyOptimizations (assembly doubling) = assembly doublingMerged := by decide +kernel
  have hreplaced : applyLoopOptimizations (assembly doublingMerged) = assembly doubled := by decide +kernel
  have hmergedImage : asmToOpcodes (assembly doublingMerged) = .ok (image doublingMerged) := by
    have hunique : (doublingMerged.filter Item.isBracket).Nodup := by decide
    refine assemble_items ⟨hunique, by decide⟩ ?_
    simp [doublingMerged, Item.Fits, Fits]
  have hdoubledImage : asmToOpcodes (assembly doubled) = .ok (image doubled) := by
    have hunique : (doubled.filter Item.isBracket).Nodup := by decide
    refine assemble_items ⟨hunique, by decide⟩ ?_
    simp [doubled, Item.Fits, Fits]
  have h := (loops_rewritten "[->++<]".toList _ (image doublingMerged) (image doubled) hgenerate
    (by rw [hmerged, hmergedImage]) (by rw [hmerged, hreplaced, hdoubledImage])
    (by rw [hmerged]; decide +kernel) (by rw [hmerged, hreplaced]; decide +kernel)).1
  rw [hmerged] at h
  obtain ⟨old, new, -, -, hold, hnew, -, hsame⟩ := h 3
    ⟨0, 7, ["SUB [A], 1".toList, "ADD A, 1".toList, "ADD [A], 2".toList, "SUB A, 1".toList]⟩
    ["MOV B, [A]".toList, "MOV [A], 0".toList, "ADD A, 1".toList, "MUL B, 2".toList, "ADD [A], B".toList,
      "SUB A, 1".toList] (by rfl) (by decide +kernel)
  exact ⟨old, new, hold.symm.trans (by decide +kernel), hnew.symm, hsame⟩

end CustomIsaVm.Brainfvck
