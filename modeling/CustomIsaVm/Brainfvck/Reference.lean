import CustomIsaVm.Brainfvck.Confinement

/-! The meaning of a source, and what generated code does of it.

`Reference` runs a source as it is written: a tape of bytes without ends, a pointer to
it, and brackets that look for their partner in the text. `Follows` relates it to the
items of the code generated, as long as the pointer is where register A can follow it
(`follows_step`); a bracket that jumps leads to the place behind its partner in both.
On the machine this is `code_simulates`. -/
namespace CustomIsaVm.Brainfvck
open Text Fold Brackets

/-! ### Running a source -/

/-- A run of the source, at the character `pos`. -/
structure Reference where
  pos : Nat
  ptr : Int
  cells : Int → MemCell
  cin : Stdin
  cout : List MemCell

namespace Reference

def start (cin : Stdin) : Reference := ⟨0, 0, fun _ => 0, cin, []⟩

def cell (r : Reference) : MemCell := r.cells r.ptr

def put (r : Reference) (v : MemCell) : Reference := {r with cells := Function.update r.cells r.ptr v}

def goto (r : Reference) (pos : Nat) : Reference := {r with pos := pos}

/-- Behind the bracket that closes the one at `pos`. -/
def closeOf (source : Str) (pos : Nat) : Option Nat :=
  (closing '[' ']' 0 (source.drop (pos + 1))).map fun (body, _) => pos + body.length + 2

/-- Behind the bracket that the one at `pos` closes: the text is read backwards. -/
def openOf (source : Str) (pos : Nat) : Option Nat :=
  (closing ']' '[' 0 (source.take pos).reverse).map fun (body, _) => pos - body.length

/-- To another bracket, if there is one. -/
def jump (r : Reference) : Option Nat → Except Ending Reference
  | some pos => .ok (r.goto pos)
  | none => .error .unhalted

/-- The command at `pos`. `,` reads the next decimal number of the stream and keeps its low
byte, as `INPUT` does, not the next character. -/
def next (source : Str) (r : Reference) : Except Ending Reference :=
  match source[r.pos]? with
  | none => .error .halted
  | some '>' => .ok ({r with ptr := r.ptr + 1}.goto (r.pos + 1))
  | some '<' => .ok ({r with ptr := r.ptr - 1}.goto (r.pos + 1))
  | some '+' => .ok ((r.put (r.cell + 1)).goto (r.pos + 1))
  | some '-' => .ok ((r.put (r.cell - 1)).goto (r.pos + 1))
  | some '.' => .ok ({r with cout := r.cout ++ [r.cell]}.goto (r.pos + 1))
  | some ',' => .ok ({r.put (UInt8.ofInt r.cin.extract.1) with cin := r.cin.extract.2}.goto (r.pos + 1))
  | some '[' => if r.cell = 0 then r.jump (closeOf source r.pos) else .ok (r.goto (r.pos + 1))
  | some ']' => if r.cell = 0 then .ok (r.goto (r.pos + 1)) else r.jump (openOf source r.pos)
  | some _ => .ok (r.goto (r.pos + 1))

theorem next_cout {source : Str} {r t : Reference} (h : next source r = .ok t) : r.cout <+: t.cout := by
  have hjump : ∀ {p}, r.jump p = .ok t → r.cout <+: t.cout := by
    intro p hp
    unfold jump at hp
    split at hp <;> cases hp
    exact List.prefix_rfl
  unfold next at h
  split at h
  · cases h
  · cases h; exact List.prefix_rfl
  · cases h; exact List.prefix_rfl
  · cases h; exact List.prefix_rfl
  · cases h; exact List.prefix_rfl
  · cases h; exact List.prefix_append _ _
  · cases h; exact List.prefix_rfl
  · split at h
    · exact hjump h
    · cases h; exact List.prefix_rfl
  · split at h
    · cases h; exact List.prefix_rfl
    · exact hjump h
  · cases h; exact List.prefix_rfl

def system (source : Str) : System Reference Ending MemCell where
  next := next source
  output r := r.cout
  output_next := next_cout

end Reference

/-! ### Brackets in the source -/

/-- A bracket that opens leads behind the one that closes it. -/
theorem closeOf_eq {source : Str} (h : Balanced source) {pos : Nat} (hpos : source[pos]? = some '[') :
    ∃ j, Matching source pos j ∧ Reference.closeOf source pos = some (j + 1) := by
  obtain ⟨j, hm⟩ := matching_of_balanced h hpos
  refine ⟨j, hm, ?_⟩
  obtain ⟨hlt, heq⟩ := List.getElem?_eq_some_iff.mp hm.closes
  have hmt := hm.lt
  have hsplit : source.drop (pos + 1) = (source.take j).drop (pos + 1) ++ ']' :: source.drop (j + 1) := by
    rw [← heq, ← List.drop_eq_getElem_cons hlt]
    conv_lhs => rw [← List.take_append_drop j source]
    exact List.drop_append_of_le_length (by rw [List.length_take]; omega)
  have hclosing : closing '[' ']' 0 (source.drop (pos + 1)) =
      some ((source.take j).drop (pos + 1), source.drop (j + 1)) :=
    (closing_eq_some (by decide)).mpr ⟨hsplit, (balanced_iff (by decide)).mp hm.between⟩
  rw [Reference.closeOf, hclosing]
  show some (pos + ((source.take j).drop (pos + 1)).length + 2) = _
  rw [List.length_drop, List.length_take]
  exact congrArg some (by omega)

/-- A bracket that closes leads behind the one that it closes. -/
theorem openOf_eq {source : Str} (h : Balanced source) {pos : Nat} (hpos : source[pos]? = some ']') :
    ∃ i, Matching source i pos ∧ Reference.openOf source pos = some (i + 1) := by
  obtain ⟨hlt, heq⟩ := List.getElem?_eq_some_iff.mp hpos
  have hcut : source = source.take pos ++ ']' :: source.drop (pos + 1) := by
    rw [← heq, ← List.drop_eq_getElem_cons hlt, List.take_append_drop]
  have hreverse : Brackets.Balanced ']' '['
      ((source.drop (pos + 1)).reverse ++ ']' :: (source.take pos).reverse) := by
    have := h.reverse
    rw [hcut, List.reverse_append, List.reverse_cons, List.append_assoc, List.singleton_append] at this
    simpa using this
  obtain ⟨v, w, hvw, hv⟩ := hreverse.closes (by decide)
  have htake : source.take pos = w.reverse ++ '[' :: v.reverse := by
    rw [← List.reverse_reverse (source.take pos), hvw]
    simp
  have hlength : pos = w.length + 1 + v.length := by
    have := congrArg List.length htake
    simp only [List.length_take, List.length_append, List.length_cons, List.length_reverse] at this
    omega
  refine ⟨w.length, ⟨?_, hpos, by omega, ?_⟩, ?_⟩
  · rw [hcut, htake, List.append_assoc, List.getElem?_append_right (by simp)]
    simp
  · have hdrop : (source.take pos).drop (w.length + 1) = v.reverse := by
      rw [htake, List.append_cons]
      exact List.drop_left' (by simp)
    rw [hdrop]
    exact hv.reverse
  · have hclosing : closing ']' '[' 0 (source.take pos).reverse = some (v, w) :=
      (closing_eq_some (by decide)).mpr ⟨hvw, (balanced_iff (by decide)).mp hv⟩
    rw [Reference.openOf, hclosing]
    exact congrArg some (show pos - v.length = w.length + 1 by omega)

/-- Only the end of a balanced source ends its run. -/
theorem Reference.next_error {source : Str} (h : Balanced source) {r : Reference} {e : Ending}
    (hnext : Reference.next source r = .error e) : e = .halted ∧ source[r.pos]? = none := by
  unfold Reference.next at hnext
  split at hnext
  next hpos =>
    cases hnext
    exact ⟨rfl, hpos⟩
  all_goals try cases hnext
  next hpos =>
    obtain ⟨j, -, hclose⟩ := closeOf_eq h hpos
    rw [hclose] at hnext
    split at hnext <;> cases hnext
  next hpos =>
    obtain ⟨i, -, hopen⟩ := openOf_eq h hpos
    rw [hopen] at hnext
    split at hnext <;> cases hnext

/-! ### The code of a position -/

/-- Code generation has come to `pos`, and to `g`. -/
def Generates (source : Str) (pos : Nat) (g : Generated) : Prop :=
  (source.take pos).foldlM Generated.step .start = some g

theorem generates_zero (source : Str) : Generates source 0 .start := by
  rw [Generates, List.take_zero]
  rfl

/-- The character at `pos` has emitted `x`; `rest` is what is emitted behind it. -/
structure Emits (source : Str) (xs : List Item) (pos : Nat) (x : Item) (rest : List Item) : Prop where
  here : ∃ g, Generates source pos g ∧ xs = g.items ++ x :: rest
  behind : ∃ g, Generates source (pos + 1) g ∧ xs = g.items ++ rest

theorem Emits.seek {source : Str} {xs : List Item} {pos : Nat} {x : Item} {rest : List Item}
    (h : Emits source xs pos x rest) (hunique : UniqueBrackets xs) (hx : x.isBracket = true) :
    seek x xs = x :: rest := by
  obtain ⟨g, -, rfl⟩ := h.here
  exact seek_unique hunique hx

/-- What has been emitted stays. -/
theorem foldlM_items {text : Str} {g g' : Generated} (h : text.foldlM Generated.step g = some g') :
    g.items <+: g'.items := by
  refine generated_keeps (I := fun u => g.items <+: u.items) (fun u c u' hu hs => hu.trans ?_) h List.prefix_rfl
  unfold Generated.step at hs
  split at hs
  all_goals first | (cases hs; exact List.prefix_append _ _) | skip
  · split at hs <;> cases hs
    exact List.prefix_append _ _
  · cases hs
    exact List.prefix_rfl

theorem Generates.parIdAt {source : Str} (h : Balanced source) {pos : Nat} {g : Generated}
    (hg : Generates source pos g) : (source[pos]? = some '[' → parIdAt source pos = some g.numberOfPar) ∧
      (source[pos]? = some ']' → Brainfvck.parIdAt source pos = g.parStack.head?) := by
  obtain ⟨s, hs⟩ := prefix_fold h pos
  obtain ⟨g', hg', hwrites⟩ := Generated.start_writes.run hs
  cases hg'.symm.trans hg
  refine ⟨fun hpos => ?_, fun hpos => ?_⟩
  · simp only [Brainfvck.parIdAt, hs, hpos, hwrites.number]
  · simp only [Brainfvck.parIdAt, hs, hpos, hwrites.stack]

namespace Stages
variable {source : Str} {xs ys zs : List Item}

theorem balanced (h : Stages source xs ys zs) : Balanced source := balanced_of_generate h.generated

/-- The items emitted up to a position are the first of all. -/
theorem generates (h : Stages source xs ys zs) (pos : Nat) :
    ∃ g more, Generates source pos g ∧ xs = g.items ++ more := by
  obtain ⟨g', hg', rfl⟩ := h.emits
  rw [← List.take_append_drop pos source, List.foldlM_append] at hg'
  obtain ⟨g, hg, hrest⟩ := Option.bind_eq_some_iff.mp hg'
  obtain ⟨more, hmore⟩ := foldlM_items hrest
  exact ⟨g, more ++ [.halt], hg, by rw [← hmore, List.append_assoc]⟩

/-- What code generation makes of the character at `pos`. -/
theorem emitted (h : Stages source xs ys zs) {pos : Nat} {c : Char} (hc : source[pos]? = some c) {g : Generated}
    (hg : Generates source pos g) :
    ∃ g' more, g.step c = some g' ∧ Generates source (pos + 1) g' ∧ xs = g'.items ++ more := by
  obtain ⟨g', more, hg', hxs⟩ := h.generates (pos + 1)
  obtain ⟨hlt, heq⟩ := List.getElem?_eq_some_iff.mp hc
  have hstep : g.step c = some g' := by
    have hfold := hg'
    rw [Generates, List.take_succ_eq_append_getElem hlt, heq, List.foldlM_append, hg] at hfold
    replace hfold : List.foldlM Generated.step g [c] = some g' := hfold
    rw [List.foldlM_cons] at hfold
    obtain ⟨u, hu, hnil⟩ := Option.bind_eq_some_iff.mp hfold
    cases hnil
    exact hu
  exact ⟨g', more, hstep, hg', hxs⟩

/-- A character that emits `x`. -/
theorem emits_of_step (h : Stages source xs ys zs) {pos : Nat} {c : Char} {x : Item}
    (hc : source[pos]? = some c) {g g' : Generated} (hg : Generates source pos g) (hstep : g.step c = some g')
    (hx : g'.items = g.items ++ [x]) : ∃ more, Emits source xs pos x more := by
  obtain ⟨u, more, hu, hgen, hxs⟩ := h.emitted hc hg
  cases hu.symm.trans hstep
  refine ⟨more, ⟨g, hg, ?_⟩, g', hgen, hxs⟩
  rw [hxs, hx, List.append_assoc]
  rfl

/-- Brackets that match emit the two items of one number. -/
theorem matching (h : Stages source xs ys zs) {i j : Nat} (hm : Matching source i j) :
    ∃ id mi mj, Emits source xs i (.loopStart id) mi ∧ Emits source xs j (.loopEnd id) mj := by
  obtain ⟨gi, -, hgi, -⟩ := h.generates i
  obtain ⟨gj, -, hgj, -⟩ := h.generates j
  obtain ⟨id, hid, hid'⟩ := (paired h.balanced).same i j hm
  have hnumber : some gi.numberOfPar = some id := ((hgi.parIdAt h.balanced).1 hm.opens).symm.trans hid
  have hhead : gj.parStack.head? = some id := ((hgj.parIdAt h.balanced).2 hm.closes).symm.trans hid'
  cases hnumber
  obtain ⟨st, hst⟩ := List.head?_eq_some_iff.mp hhead
  have hstep : gj.step ']' = some ⟨gj.items ++ [.loopEnd gi.numberOfPar], gj.numberOfPar, st⟩ := by
    simp only [Generated.step, hst]
  obtain ⟨mi, hmi⟩ := h.emits_of_step hm.opens hgi rfl rfl
  obtain ⟨mj, hmj⟩ := h.emits_of_step hm.closes hgj hstep rfl
  exact ⟨_, mi, mj, hmi, hmj⟩

end Stages

/-! ### Generated code follows the source -/

/-- The pointer is where A, two cells further, can name its cell. -/
def Reference.InRange (r : Reference) : Prop := 0 ≤ r.ptr ∧ r.ptr ≤ 253

/-- A command that uses the cell finds the pointer in range. -/
def Reference.UsesInRange (source : Str) (r : Reference) : Prop :=
  ∀ c, source[r.pos]? = some c → "+-.,[]".toList.contains c = true → r.InRange

/-- The items are at the code of the position, A is two more than the pointer, and the
cells that A can name are those of the reference. -/
structure Follows (source : Str) (xs : List Item) (r : Reference) (s : Code) : Prop where
  code : ∃ g, Generates source r.pos g ∧ xs = g.items ++ s.rest
  a : s.a = UInt8.ofInt (r.ptr + 2)
  mem : ∀ i : Int, 0 ≤ i → i ≤ 253 → s.mem (UInt8.ofInt (i + 2)) = r.cells i
  cin : s.cin = r.cin
  cout : s.cout = r.cout

theorem ofInt_inj {i j : Int} (hi : 0 ≤ i ∧ i ≤ 253) (hj : 0 ≤ j ∧ j ≤ 253) :
    UInt8.ofInt (i + 2) = UInt8.ofInt (j + 2) ↔ i = j := by
  constructor
  · intro h
    have hval := congrArg UInt8.toNat h
    rw [UInt8.ofInt, UInt8.ofInt, UInt8.toNat_ofNat', UInt8.toNat_ofNat'] at hval
    omega
  · rintro rfl
    rfl

namespace Follows
variable {source : Str} {xs ys zs : List Item} {r : Reference} {s : Code}

theorem rest (h : Follows source xs r s) {x : Item} {more : List Item} (he : Emits source xs r.pos x more) :
    s.rest = x :: more := by
  obtain ⟨g, hg, hxs⟩ := h.code
  obtain ⟨g', hg', hxs'⟩ := he.here
  cases hg'.symm.trans hg
  exact List.append_cancel_left (hxs.symm.trans hxs')

theorem cell (h : Follows source xs r s) (hin : r.InRange) : s.get .cell = r.cell := by
  show s.mem s.a = r.cells r.ptr
  rw [h.a, h.mem r.ptr hin.1 hin.2]

/-- A cell that is written is the same cell. -/
theorem put (h : Follows source xs r s) (hin : r.InRange) (v : MemCell) {i : Int} (h0 : 0 ≤ i) (h253 : i ≤ 253) :
    (s.set v .cell).mem (UInt8.ofInt (i + 2)) = (r.put v).cells i := by
  show Function.update s.mem s.a v _ = Function.update r.cells r.ptr v i
  rw [h.a]
  by_cases heq : i = r.ptr
  · rw [heq, Function.update_self, Function.update_self]
  · rw [Function.update_of_ne heq, Function.update_of_ne (mt (ofInt_inj ⟨h0, h253⟩ hin).mp heq), h.mem i h0 h253]

/-- On to the code behind an item, the rest as it is. -/
theorem goto (h : Follows source xs r s) {pos : Nat} {x : Item} {more : List Item}
    (he : Emits source xs pos x more) : Follows source xs (r.goto (pos + 1)) (s.goto more) :=
  ⟨he.behind, h.a, h.mem, h.cin, h.cout⟩

/-- A character that is no command is passed over. -/
theorem comment (h : Stages source xs ys zs) (hf : Follows source xs r s) {c : Char}
    (hc : source[r.pos]? = some c) (hcommand : isCommand c = false) :
    Reference.next source r = .ok (r.goto (r.pos + 1)) ∧ Follows source xs (r.goto (r.pos + 1)) s := by
  obtain ⟨g, hg, hxs⟩ := hf.code
  have hstep : g.step c = some g := by
    unfold Generated.step
    split <;> first | rfl | exact absurd hcommand (by decide)
  obtain ⟨g', more, hg', hgen, -⟩ := h.emitted hc hg
  cases hg'.symm.trans hstep
  refine ⟨?_, ⟨g, hgen, hxs⟩, hf.a, hf.mem, hf.cin, hf.cout⟩
  simp only [Reference.next, hc]
  split
  · cases ‹some c = none›
  all_goals first | rfl | (cases ‹some c = some _›; exact absurd hcommand (by decide))

/-- The commands that are no brackets: one item for each. -/
theorem plain (h : Stages source xs ys zs) (hf : Follows source xs r s) (hin : r.UsesInRange source) {c : Char}
    (hc : source[r.pos]? = some c) (hcommand : isCommand c = true) (hopen : c ≠ '[') (hclose : c ≠ ']')
    {r' : Reference} (hnext : Reference.next source r = .ok r') :
    ∃ s', (Code.system xs).Progress s s' ∧ Follows source xs r' s' := by
  obtain ⟨g, hg, -⟩ := hf.code
  have hitem : ∀ {x : Item} {g' : Generated}, g.step c = some g' → g'.items = g.items ++ [x] →
      ∃ more, s.rest = x :: more ∧ ∃ g, Generates source (r.pos + 1) g ∧ xs = g.items ++ more := by
    intro x g' hstep hx
    obtain ⟨more, he⟩ := h.emits_of_step hc hg hstep hx
    exact ⟨more, hf.rest he, he.behind⟩
  simp only [Reference.next, hc] at hnext
  split at hnext
  · cases ‹some _ = none›
  next heq =>
    cases heq
    cases hnext
    obtain ⟨more, hrest, hcode⟩ := hitem (x := .bump .a 1) rfl rfl
    refine ⟨_, .single (Code.next_bump hrest), hcode, ?_, hf.mem, hf.cin, hf.cout⟩
    show s.a + UInt8.ofInt 1 = UInt8.ofInt (r.ptr + 1 + 2)
    rw [hf.a, ← UInt8.ofInt_add]
    exact congrArg UInt8.ofInt (by omega)
  next heq =>
    cases heq
    cases hnext
    obtain ⟨more, hrest, hcode⟩ := hitem (x := .bump .a (-1)) rfl rfl
    refine ⟨_, .single (Code.next_bump hrest), hcode, ?_, hf.mem, hf.cin, hf.cout⟩
    show s.a + UInt8.ofInt (-1) = UInt8.ofInt (r.ptr - 1 + 2)
    rw [hf.a, ← UInt8.ofInt_add]
    exact congrArg UInt8.ofInt (by omega)
  next heq =>
    cases heq
    cases hnext
    obtain ⟨more, hrest, hcode⟩ := hitem (x := .bump .cell 1) rfl rfl
    have hin := hin _ hc rfl
    rw [← hf.cell hin]
    exact ⟨_, .single (Code.next_bump hrest), hcode, hf.a, fun i => hf.put hin _, hf.cin, hf.cout⟩
  next heq =>
    cases heq
    cases hnext
    obtain ⟨more, hrest, hcode⟩ := hitem (x := .bump .cell (-1)) rfl rfl
    have hin := hin _ hc rfl
    rw [← hf.cell hin, UInt8.sub_eq_add_neg]
    exact ⟨_, .single (Code.next_bump hrest), hcode, hf.a, fun i => hf.put hin _, hf.cin, hf.cout⟩
  next heq =>
    cases heq
    cases hnext
    obtain ⟨more, hrest, hcode⟩ := hitem (x := .print) rfl rfl
    refine ⟨_, .single (Code.next_print hrest), hcode, hf.a, hf.mem, hf.cin, ?_⟩
    show s.cout ++ [s.get .cell] = r.cout ++ [r.cell]
    rw [hf.cout, hf.cell (hin _ hc rfl)]
  next heq =>
    cases heq
    cases hnext
    obtain ⟨more, hrest, hcode⟩ := hitem (x := .input) rfl rfl
    have hin := hin _ hc rfl
    rw [← hf.cin]
    exact ⟨_, .single (Code.next_input hrest), hcode, hf.a, fun i => hf.put hin _, rfl, hf.cout⟩
  next heq => cases heq; exact absurd rfl hopen
  next heq => cases heq; exact absurd rfl hclose
  next heq =>
    cases heq
    simp [isCommand] at hcommand
    simp_all

/-- A bracket that opens: with a zero cell the run goes on behind its partner, where the
second comparison finds the cell zero again. -/
theorem opens (h : Stages source xs ys zs) (hf : Follows source xs r s) (hin : r.InRange)
    (hc : source[r.pos]? = some '[') : ∃ j, Matching source r.pos j ∧
      Reference.next source r = .ok (r.goto (if r.cell = 0 then j + 1 else r.pos + 1)) ∧
      ∃ s', (Code.system xs).Progress s s' ∧
        Follows source xs (r.goto (if r.cell = 0 then j + 1 else r.pos + 1)) s' := by
  obtain ⟨j, hm, hclose⟩ := closeOf_eq h.balanced hc
  obtain ⟨id, mi, mj, hi, hj⟩ := h.matching hm
  refine ⟨j, hm, ?_⟩
  have hstep := Code.next_loopStart (p := xs) (hf.rest hi)
  rw [hf.cell hin] at hstep
  simp only [Reference.next, hc]
  by_cases hzero : r.cell = 0
  · rw [if_pos hzero, hj.seek h.brackets.unique rfl] at hstep
    rw [if_pos hzero, if_pos hzero, hclose]
    have hstep' := Code.next_loopEnd (p := xs) (s := s.goto (.loopEnd id :: mj)) rfl
    rw [Code.get_goto, hf.cell hin, if_pos hzero, Code.goto_goto] at hstep'
    exact ⟨rfl, _, (System.Progress.single hstep).trans (.single hstep'), hf.goto hj⟩
  · rw [if_neg hzero] at hstep
    rw [if_neg hzero, if_neg hzero]
    exact ⟨rfl, _, .single hstep, hf.goto hi⟩

/-- A bracket that closes: with another cell the run goes on inside its partner, where the
second comparison lets it pass. -/
theorem closes (h : Stages source xs ys zs) (hf : Follows source xs r s) (hin : r.InRange)
    (hc : source[r.pos]? = some ']') : ∃ i, Matching source i r.pos ∧
      Reference.next source r = .ok (r.goto (if r.cell = 0 then r.pos + 1 else i + 1)) ∧
      ∃ s', (Code.system xs).Progress s s' ∧
        Follows source xs (r.goto (if r.cell = 0 then r.pos + 1 else i + 1)) s' := by
  obtain ⟨i, hm, hopen⟩ := openOf_eq h.balanced hc
  obtain ⟨id, mi, mj, hi, hj⟩ := h.matching hm
  refine ⟨i, hm, ?_⟩
  have hstep := Code.next_loopEnd (p := xs) (hf.rest hj)
  rw [hf.cell hin] at hstep
  simp only [Reference.next, hc]
  by_cases hzero : r.cell = 0
  · rw [if_pos hzero] at hstep
    rw [if_pos hzero, if_pos hzero]
    exact ⟨rfl, _, .single hstep, hf.goto hj⟩
  · rw [if_neg hzero, hi.seek h.brackets.unique rfl] at hstep
    rw [if_neg hzero, if_neg hzero, hopen]
    have hstep' := Code.next_loopStart (p := xs) (s := s.goto (.loopStart id :: mi)) rfl
    rw [Code.get_goto, hf.cell hin, if_neg hzero, Code.goto_goto] at hstep'
    exact ⟨rfl, _, (System.Progress.single hstep).trans (.single hstep'), hf.goto hi⟩

/-- **A command of the source** is one of its items, or two. -/
theorem command (h : Stages source xs ys zs) (hf : Follows source xs r s) (hin : r.UsesInRange source) {c : Char}
    (hc : source[r.pos]? = some c) (hcommand : isCommand c = true) {r' : Reference}
    (hnext : Reference.next source r = .ok r') :
    ∃ s', (Code.system xs).Progress s s' ∧ Follows source xs r' s' := by
  by_cases hopen : c = '['
  · subst hopen
    obtain ⟨j, -, hnext', s', hs', hf'⟩ := hf.opens h (hin _ hc rfl) hc
    cases hnext'.symm.trans hnext
    exact ⟨s', hs', hf'⟩
  · by_cases hclose : c = ']'
    · subst hclose
      obtain ⟨i, -, hnext', s', hs', hf'⟩ := hf.closes h (hin _ hc rfl) hc
      cases hnext'.symm.trans hnext
      exact ⟨s', hs', hf'⟩
    · exact hf.plain h hin hc hcommand hopen hclose hnext

/-- A step of the source is some steps of its items, or none. -/
theorem step (h : Stages source xs ys zs) (hf : Follows source xs r s) (hin : r.UsesInRange source)
    {r' : Reference} (hnext : Reference.next source r = .ok r') :
    ∃ s', (Code.system xs).Reaches s s' ∧ Follows source xs r' s' := by
  cases hc : source[r.pos]? with
  | none =>
    simp only [Reference.next, hc] at hnext
    cases hnext
  | some c =>
    cases hcommand : isCommand c with
    | true =>
      obtain ⟨s', hs', hf'⟩ := hf.command h hin hc hcommand hnext
      exact ⟨s', hs'.reaches, hf'⟩
    | false =>
      obtain ⟨hnext', hf'⟩ := hf.comment h hc hcommand
      cases hnext'.symm.trans hnext
      exact ⟨s, .refl s, hf'⟩

/-- A run of the source, all of it in range. -/
theorem run (h : Stages source xs ys zs) (hf : Follows source xs r s) {n : Nat} {r' : Reference}
    (hin : (Reference.system source).Within Reference.InRange n r)
    (hrun : (Reference.system source).after n r = some r') :
    ∃ s', (Code.system xs).Reaches s s' ∧ Follows source xs r' s' :=
  hin.invariant (I := fun r => ∃ s', (Code.system xs).Reaches s s' ∧ Follows source xs r s')
    (fun _ _ ⟨u, hu, hfu⟩ hcu hnext => by
      obtain ⟨s', hs', hf'⟩ := hfu.step h (fun _ _ _ => hcu) hnext
      exact ⟨s', hu.trans hs', hf'⟩) hrun ⟨s, .refl s, hf⟩

end Follows

/-! ### On the machine -/

/-- Where the code of the character at `pos` stands: behind the header, the tape, and what
the characters before it have emitted. -/
def codeAt (source : Str) (pos : Nat) : Option Nat :=
  ((source.take pos).foldlM Generated.step .start).map fun g => codeStart + size g.items

/-- The machine has come as far as the run of the source. -/
structure Shadows (source : Str) (p : Process) (r : Reference) (m : Machine) : Prop where
  a : ((m.registers 0).toNat : Int) = r.ptr + 2
  cells : ∀ i : Nat, i ≤ 253 → m.ram (p.firstSector.toNat + 2 + i) = r.cells i
  pc : ∃ k, codeAt source r.pos = some k ∧ m.proc.pc.toNat = p.firstSector.toNat + k
  cout : m.cout = r.cout

theorem Follows.shadows {source : Str} {xs : List Item} {r : Reference} {s : Code} {p : Process} {m : Machine}
    (hf : Follows source xs r s) (hin : r.InRange) (hat : At xs s 0 m)
    (hfirst : m.proc.firstSector = p.firstSector) : Shadows source p r m where
  a := by
    rw [hat.shows.a, hf.a, UInt8.ofInt, UInt8.toNat_ofNat']
    have := hin.1
    have := hin.2
    omega
  cells i hi := by
    have hcell := hat.shows.mem (UInt8.ofInt ((i : Int) + 2))
    rw [hf.mem i (by omega) (by omega), hfirst] at hcell
    rw [← hcell, UInt8.ofInt, UInt8.toNat_ofNat']
    congr 1
    omega
  pc := by
    obtain ⟨g, hg, hxs⟩ := hf.code
    obtain ⟨done, hdone, hpc⟩ := hat.pc
    have hitems : done = g.items := List.append_cancel_right (hdone.symm.trans hxs)
    subst hitems
    refine ⟨codeStart + size g.items, ?_, by rw [hpc, hfirst, Nat.add_zero]⟩
    rw [codeAt, hg, Option.map_some]
  cout := hat.shows.cout.trans hf.cout

namespace Stages
variable {source : Str} {xs ys zs : List Item}

/-- Generated literals are two at most. -/
theorem within_two (h : Stages source xs ys zs) : ∀ x ∈ xs, x.Within 2 := fun x hx =>
  (h.units x hx).within ((h.units x hx).weight_le_one.trans (by decide)) (Nat.le_refl 2)

theorem narrow_emitted (h : Stages source xs ys zs) : Narrow xs := by
  refine ⟨fun x hx => ?_, h.halting_emitted, h.brackets⟩
  have hx := h.within_two x hx
  unfold Item.Within at hx
  unfold Item.Byte
  split
  · omega
  · trivial

theorem assembles (h : Stages source xs ys zs) : Assembler.asmToOpcodes (assembly xs) = .ok (image xs) :=
  assemble_items h.brackets fun x hx => ((h.within_two x hx).mono (by decide)).fits

/-- Behind its first instruction, the image is where the source begins. -/
theorem follows_start (h : Stages source xs ys zs) {s : Code} (hrest : s.rest = xs) (hmem : s.mem = tape)
    (hcout : s.cout = []) :
    ∃ s', (Code.system xs).Reaches s s' ∧ Follows source xs (.start s.cin) s' := by
  obtain ⟨xs', -, -, hxs, -⟩ := h.head
  refine ⟨_, .single (Code.next_op (hrest.trans hxs)), ⟨_, generates_zero source, hxs⟩, rfl, fun i h0 h253 => ?_,
    rfl, hcout⟩
  show s.mem (UInt8.ofInt (i + 2)) = 0
  have hval : (UInt8.ofInt (i + 2)).toNat = (i + 2).toNat := by
    rw [UInt8.ofInt, UInt8.toNat_ofNat']
    omega
  have hne : ∀ k : MemCell, k.toNat < 2 → UInt8.ofInt (i + 2) ≠ k := by
    rintro k hk rfl
    omega
  rw [hmem, tape, if_neg (hne 0 (by decide)), if_neg (hne 1 (by decide))]

end Stages

/-- **Generated code simulates its source**, wherever it is loaded and whatever it reads, for
as long as the pointer stays in range; a bracket that jumps goes on at its partner. -/
theorem code_simulates (source code : Str) (hcode : generate source = .ok code) :
    ∃ bytes, Assembler.asmToOpcodes code = .ok bytes ∧ ∀ vm vm' procs p, Session vm procs →
      vm.load bytes = .ok (p, vm') → ∀ cin n r, (Reference.system source).after n (.start cin) = some r →
      (∀ k ≤ n, ∀ u, (Reference.system source).after k (.start cin) = some u → u.InRange) →
      ∃ m, Machine.system.Reaches (.headless vm' p cin) m ∧ Shadows source p r m ∧
        (source[r.pos]? = some '[' → ∃ j m', Matching source r.pos j ∧ Machine.system.Reaches m m' ∧
          Shadows source p (r.goto (if r.cell = 0 then j + 1 else r.pos + 1)) m') ∧
        (source[r.pos]? = some ']' → ∃ i m', Matching source i r.pos ∧ Machine.system.Reaches m m' ∧
          Shadows source p (r.goto (if r.cell = 0 then r.pos + 1 else i + 1)) m') := by
  obtain ⟨xs, ys, zs, h⟩ := stages (balanced_of_generate hcode)
  cases h.generated.symm.trans hcode
  refine ⟨image xs, h.assembles, fun vm vm' procs p hs hload cin n r hrun hin => ?_⟩
  obtain ⟨s, hat, hrest, hmem, rfl, hcout⟩ := at_load hs hload cin
  obtain ⟨s₀, hs₀, hf₀⟩ := h.follows_start hrest hmem hcout
  have hrange : r.InRange := hin n (Nat.le_refl n) r hrun
  obtain ⟨s₁, hs₁, hf⟩ := hf₀.run h (fun k hk u hu => hin k (Nat.le_of_lt hk) u hu) hrun
  -- what the items reach, the machine reaches
  have hreach : ∀ {t t' : Code} {m : Machine}, t.rest <:+ xs → At xs t 0 m →
      m.proc.firstSector = p.firstSector → (Code.system xs).Reaches t t' →
      ∃ m', Machine.system.Reaches m m' ∧ At xs t' 0 m' ∧ m'.proc.firstSector = p.firstSector := by
    intro t t' m ht hm hfirst htt'
    obtain ⟨m', hm', hon, hat'⟩ := hm.reaches htt' (h.narrow_emitted.all_faithful ht)
    exact ⟨m', hm', hat', hon.firstSector.trans hfirst⟩
  obtain ⟨m, hm, hatm, hfirst⟩ := hreach (hrest ▸ List.suffix_refl xs) hat rfl (hs₀.trans hs₁)
  have hsuffix : s₁.rest <:+ xs := by
    obtain ⟨done, hdone, -⟩ := hatm.pc
    exact ⟨done, hdone.symm⟩
  refine ⟨m, hm, hf.shadows hrange hatm hfirst, fun hopen => ?_, fun hclose => ?_⟩
  · obtain ⟨j, hmatch, -, s₂, hs₂, hf₂⟩ := hf.opens h hrange hopen
    obtain ⟨m', hm', hat', hfirst'⟩ := hreach hsuffix hatm hfirst hs₂.reaches
    exact ⟨j, m', hmatch, hm', hf₂.shadows hrange hat' hfirst'⟩
  · obtain ⟨i, hmatch, -, s₂, hs₂, hf₂⟩ := hf.closes h hrange hclose
    obtain ⟨m', hm', hat', hfirst'⟩ := hreach hsuffix hatm hfirst hs₂.reaches
    exact ⟨i, m', hmatch, hm', hf₂.shadows hrange hat' hfirst'⟩

/-- The items of `[.]+.`. -/
def skipping : List Item :=
  [.op .mov .a (.num 2), .loopStart 0, .print, .loopEnd 0, .op .add .cell (.num 1), .print, .halt]

/-- The loop is skipped, and the cell is printed when it holds one. -/
theorem code_simulates_skipping : ∃ m, Machine.system.Reaches
    (.headless (freshVM (image skipping)) (freshProcess (image skipping)) ⟨[], false⟩) m ∧
      m.cout = [1] ∧ m.registers 0 = 2 := by
  have hgenerate : generate "[.]+.".toList = .ok (assembly skipping) := by decide +kernel
  have hassemble : Assembler.asmToOpcodes (assembly skipping) = .ok (image skipping) := by
    have hunique : (skipping.filter Item.isBracket).Nodup := by decide
    refine assemble_items ⟨hunique, by decide⟩ ?_
    simp [skipping, Item.Fits, Fits]
  have hload : VM.fresh.load (image skipping) = _ := load_fresh (by rw [image_length]; decide)
  obtain ⟨bytes, hbytes, hsim⟩ := code_simulates _ _ hgenerate
  cases hbytes.symm.trans hassemble
  have hin : ∀ k ≤ 3, ∀ u, (Reference.system "[.]+.".toList).after k (.start ⟨[], false⟩) = some u →
      u.InRange := by
    intro k hk u hu
    obtain rfl | rfl | rfl | rfl : k = 0 ∨ k = 1 ∨ k = 2 ∨ k = 3 := by omega
    all_goals
      cases hu
      exact ⟨by decide, by decide⟩
  obtain ⟨m, hm, hshadows, -⟩ := hsim _ _ _ _ .fresh hload ⟨[], false⟩ 3 _ rfl hin
  refine ⟨m, hm, hshadows.cout, UInt8.toNat_inj.mp ?_⟩
  have ha := hshadows.a
  exact Int.ofNat_inj.mp ha

end CustomIsaVm.Brainfvck
