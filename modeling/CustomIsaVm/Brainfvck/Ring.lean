import CustomIsaVm.Brainfvck.EndToEnd

/-! A compiled source, wherever its pointer goes.

Register A is a byte, and names the first 256 bytes of the segment. Past the last of them
it comes to the first, so the tape of a compiled source is a ring; the two bytes of the
header stand on it as any others, behind the cell the pointer starts at. `Ring` runs a
source on it. `Rounds` relates that run to the items, without a word on the pointer, and
`compiled_ring` is that the image does what the ring does. -/
namespace CustomIsaVm.Brainfvck
open Assembler

/-! ### Running a source on a ring -/

/-- A run of the source, at the character `pos`, on 256 cells. -/
structure Ring where
  pos : Nat
  ptr : MemCell
  cells : MemCell → MemCell
  cin : Stdin
  cout : List MemCell

namespace Ring

def start (cin : Stdin) : Ring := ⟨0, 2, tape, cin, []⟩

def cell (r : Ring) : MemCell := r.cells r.ptr

def put (r : Ring) (v : MemCell) : Ring := {r with cells := Function.update r.cells r.ptr v}

def goto (r : Ring) (pos : Nat) : Ring := {r with pos := pos}

/-- The ring on a tape without ends, once round and round again, its third cell first. -/
def unrolled (r : Ring) : Reference :=
  ⟨r.pos, r.ptr.toNat - 2, fun i => r.cells (UInt8.ofInt (i + 2)), r.cin, r.cout⟩

/-- To another bracket, if there is one. -/
def jump (r : Ring) : Option Nat → Except Ending Ring
  | some pos => .ok (r.goto pos)
  | none => .error .unhalted

/-- The command at `pos`. `,` reads the next decimal number, as in `Reference.next`. -/
def next (source : Str) (r : Ring) : Except Ending Ring :=
  match source[r.pos]? with
  | none => .error .halted
  | some '>' => .ok ({r with ptr := r.ptr + 1}.goto (r.pos + 1))
  | some '<' => .ok ({r with ptr := r.ptr - 1}.goto (r.pos + 1))
  | some '+' => .ok ((r.put (r.cell + 1)).goto (r.pos + 1))
  | some '-' => .ok ((r.put (r.cell - 1)).goto (r.pos + 1))
  | some '.' => .ok ({r with cout := r.cout ++ [r.cell]}.goto (r.pos + 1))
  | some ',' => .ok ({r.put (UInt8.ofInt r.cin.extract.1) with cin := r.cin.extract.2}.goto (r.pos + 1))
  | some '[' => if r.cell = 0 then r.jump (Reference.closeOf source r.pos) else .ok (r.goto (r.pos + 1))
  | some ']' => if r.cell = 0 then .ok (r.goto (r.pos + 1)) else r.jump (Reference.openOf source r.pos)
  | some _ => .ok (r.goto (r.pos + 1))

theorem next_cout {source : Str} {r t : Ring} (h : next source r = .ok t) : r.cout <+: t.cout := by
  have hjump : ∀ {p}, r.jump p = .ok t → r.cout <+: t.cout := by
    intro p hp
    unfold jump at hp
    split at hp <;> cases hp
    exact List.prefix_rfl
  unfold next at h
  split at h
  · cases h
  · cases h; exact List.prefix_rfl
  · cases h; exact List.prefix_rfl
  · cases h; exact List.prefix_rfl
  · cases h; exact List.prefix_rfl
  · cases h; exact List.prefix_append _ _
  · cases h; exact List.prefix_rfl
  · split at h
    · exact hjump h
    · cases h; exact List.prefix_rfl
  · split at h
    · cases h; exact List.prefix_rfl
    · exact hjump h
  · cases h; exact List.prefix_rfl

def system (source : Str) : System Ring Ending MemCell where
  next := next source
  output r := r.cout
  output_next := next_cout

/-- Only the end of a balanced source ends its run. -/
theorem next_error {source : Str} (h : Balanced source) {r : Ring} {e : Ending}
    (hnext : next source r = .error e) : e = .halted ∧ source[r.pos]? = none := by
  unfold next at hnext
  split at hnext
  next hpos =>
    cases hnext
    exact ⟨rfl, hpos⟩
  all_goals try cases hnext
  next hpos =>
    obtain ⟨j, -, hclose⟩ := closeOf_eq h hpos
    rw [hclose] at hnext
    split at hnext <;> cases hnext
  next hpos =>
    obtain ⟨i, -, hopen⟩ := openOf_eq h hpos
    rw [hopen] at hnext
    split at hnext <;> cases hnext

end Ring

/-! ### Items go round with their source -/

/-- The items are at the code of the position, and their tape is the ring. -/
structure Rounds (source : Str) (xs : List Item) (r : Ring) (s : Code) : Prop where
  code : ∃ g, Generates source r.pos g ∧ xs = g.items ++ s.rest
  a : s.a = r.ptr
  mem : s.mem = r.cells
  cin : s.cin = r.cin
  cout : s.cout = r.cout

namespace Rounds
variable {source : Str} {xs ys zs : List Item} {r : Ring} {s : Code}

/-- The items follow the unrolled ring, which tells where they are. -/
theorem follows (h : Rounds source xs r s) : Follows source xs r.unrolled s where
  code := h.code
  a := by
    have hlt := r.ptr.toNat_lt
    show s.a = UInt8.ofInt ((r.ptr.toNat : Int) - 2 + 2)
    refine h.a.trans (UInt8.toNat_inj.mp ?_)
    rw [ofInt_toNat]
    omega
  mem i _ _ := congrFun h.mem _
  cin := h.cin
  cout := h.cout

theorem cell (h : Rounds source xs r s) : s.get .cell = r.cell := by
  show s.mem s.a = r.cells r.ptr
  rw [h.a, h.mem]

theorem put (h : Rounds source xs r s) (v : MemCell) : (s.set v .cell).mem = (r.put v).cells := by
  show Function.update s.mem s.a v = Function.update r.cells r.ptr v
  rw [h.a, h.mem]

/-- On to the code behind an item, the rest as it is. -/
theorem goto (h : Rounds source xs r s) {pos : Nat} {x : Item} {more : List Item}
    (he : Emits source xs pos x more) : Rounds source xs (r.goto (pos + 1)) (s.goto more) :=
  ⟨he.behind, h.a, h.mem, h.cin, h.cout⟩

/-- A character that is no command is passed over. -/
theorem comment (h : Stages source xs ys zs) (hr : Rounds source xs r s) {c : Char}
    (hc : source[r.pos]? = some c) (hcommand : isCommand c = false) :
    Ring.next source r = .ok (r.goto (r.pos + 1)) ∧ Rounds source xs (r.goto (r.pos + 1)) s := by
  refine ⟨?_, (hr.follows.comment h hc hcommand).2.code, hr.a, hr.mem, hr.cin, hr.cout⟩
  simp only [Ring.next, hc]
  split
  · cases ‹some c = none›
  all_goals first | rfl | (cases ‹some c = some _›; exact absurd hcommand (by decide))

/-- The item of a command that is no bracket. -/
theorem emits (h : Stages source xs ys zs) (hr : Rounds source xs r s) {c : Char} {x : Item}
    (hc : source[r.pos]? = some c)
    (hstep : ∀ g : Generated, g.step c = some ⟨g.items ++ [x], g.numberOfPar, g.parStack⟩) :
    ∃ more, s.rest = x :: more ∧ ∃ g, Generates source (r.pos + 1) g ∧ xs = g.items ++ more := by
  obtain ⟨g, hg, -⟩ := hr.code
  obtain ⟨more, he⟩ := h.emits_of_step hc hg (hstep g) rfl
  exact ⟨more, hr.follows.rest he, he.behind⟩

/-- The commands that are no brackets: one item for each. -/
theorem plain (h : Stages source xs ys zs) (hr : Rounds source xs r s) {c : Char}
    (hc : source[r.pos]? = some c) (hcommand : isCommand c = true) (hopen : c ≠ '[') (hclose : c ≠ ']')
    {r' : Ring} (hnext : Ring.next source r = .ok r') :
    ∃ s', (Code.system xs).Progress s s' ∧ Rounds source xs r' s' := by
  simp only [Ring.next, hc] at hnext
  split at hnext
  · cases ‹some _ = none›
  next heq =>
    cases heq
    cases hnext
    obtain ⟨more, hrest, hcode⟩ := hr.emits h hc (x := .bump .a 1) fun _ => rfl
    exact ⟨_, .single (Code.next_bump hrest), hcode, congrArg (· + 1) hr.a, hr.mem, hr.cin, hr.cout⟩
  next heq =>
    cases heq
    cases hnext
    obtain ⟨more, hrest, hcode⟩ := hr.emits h hc (x := .bump .a (-1)) fun _ => rfl
    refine ⟨_, .single (Code.next_bump hrest), hcode, ?_, hr.mem, hr.cin, hr.cout⟩
    show s.a + UInt8.ofInt (-1) = r.ptr - 1
    rw [hr.a, UInt8.sub_eq_add_neg]
    rfl
  next heq =>
    cases heq
    cases hnext
    obtain ⟨more, hrest, hcode⟩ := hr.emits h hc (x := .bump .cell 1) fun _ => rfl
    rw [← hr.cell]
    exact ⟨_, .single (Code.next_bump hrest), hcode, hr.a, hr.put _, hr.cin, hr.cout⟩
  next heq =>
    cases heq
    cases hnext
    obtain ⟨more, hrest, hcode⟩ := hr.emits h hc (x := .bump .cell (-1)) fun _ => rfl
    rw [← hr.cell, UInt8.sub_eq_add_neg]
    exact ⟨_, .single (Code.next_bump hrest), hcode, hr.a, hr.put _, hr.cin, hr.cout⟩
  next heq =>
    cases heq
    cases hnext
    obtain ⟨more, hrest, hcode⟩ := hr.emits h hc (x := .print) fun _ => rfl
    refine ⟨_, .single (Code.next_print hrest), hcode, hr.a, hr.mem, hr.cin, ?_⟩
    show s.cout ++ [s.get .cell] = r.cout ++ [r.cell]
    rw [hr.cout, hr.cell]
  next heq =>
    cases heq
    cases hnext
    obtain ⟨more, hrest, hcode⟩ := hr.emits h hc (x := .input) fun _ => rfl
    rw [← hr.cin]
    exact ⟨_, .single (Code.next_input hrest), hcode, hr.a, hr.put _, rfl, hr.cout⟩
  next heq => cases heq; exact absurd rfl hopen
  next heq => cases heq; exact absurd rfl hclose
  next heq =>
    cases heq
    simp [isCommand] at hcommand
    simp_all

/-- A bracket that opens: with a zero cell both go on behind its partner. -/
theorem opens (h : Stages source xs ys zs) (hr : Rounds source xs r s) (hc : source[r.pos]? = some '[')
    {r' : Ring} (hnext : Ring.next source r = .ok r') :
    ∃ s', (Code.system xs).Progress s s' ∧ Rounds source xs r' s' := by
  obtain ⟨j, hm, hclose⟩ := closeOf_eq h.balanced hc
  obtain ⟨id, mi, mj, hi, hj⟩ := h.matching hm
  have hstep := Code.next_loopStart (p := xs) (hr.follows.rest hi)
  rw [hr.cell] at hstep
  simp only [Ring.next, hc, hclose] at hnext
  by_cases hzero : r.cell = 0
  · rw [if_pos hzero] at hnext
    cases hnext
    rw [if_pos hzero, hj.seek h.brackets.unique rfl] at hstep
    have hstep' := Code.next_loopEnd (p := xs) (s := s.goto (.loopEnd id :: mj)) rfl
    rw [Code.get_goto, hr.cell, if_pos hzero, Code.goto_goto] at hstep'
    exact ⟨_, (System.Progress.single hstep).trans (.single hstep'), hr.goto hj⟩
  · rw [if_neg hzero] at hnext
    cases hnext
    rw [if_neg hzero] at hstep
    exact ⟨_, .single hstep, hr.goto hi⟩

/-- A bracket that closes: with another cell both go on inside its partner. -/
theorem closes (h : Stages source xs ys zs) (hr : Rounds source xs r s) (hc : source[r.pos]? = some ']')
    {r' : Ring} (hnext : Ring.next source r = .ok r') :
    ∃ s', (Code.system xs).Progress s s' ∧ Rounds source xs r' s' := by
  obtain ⟨i, hm, hopen⟩ := openOf_eq h.balanced hc
  obtain ⟨id, mi, mj, hi, hj⟩ := h.matching hm
  have hstep := Code.next_loopEnd (p := xs) (hr.follows.rest hj)
  rw [hr.cell] at hstep
  simp only [Ring.next, hc, hopen] at hnext
  by_cases hzero : r.cell = 0
  · rw [if_pos hzero] at hnext
    cases hnext
    rw [if_pos hzero] at hstep
    exact ⟨_, .single hstep, hr.goto hj⟩
  · rw [if_neg hzero] at hnext
    cases hnext
    rw [if_neg hzero, hi.seek h.brackets.unique rfl] at hstep
    have hstep' := Code.next_loopStart (p := xs) (s := s.goto (.loopStart id :: mi)) rfl
    rw [Code.get_goto, hr.cell, if_neg hzero, Code.goto_goto] at hstep'
    exact ⟨_, (System.Progress.single hstep).trans (.single hstep'), hr.goto hi⟩

/-- **A command of the source** is one of its items, or two, wherever the pointer is. -/
theorem command (h : Stages source xs ys zs) (hr : Rounds source xs r s) {c : Char}
    (hc : source[r.pos]? = some c) (hcommand : isCommand c = true) {r' : Ring}
    (hnext : Ring.next source r = .ok r') :
    ∃ s', (Code.system xs).Progress s s' ∧ Rounds source xs r' s' := by
  by_cases hopen : c = '['
  · subst hopen
    exact hr.opens h hc hnext
  · by_cases hclose : c = ']'
    · subst hclose
      exact hr.closes h hc hnext
    · exact hr.plain h hc hcommand hopen hclose hnext

/-- Past the comments, to a command or to the end. -/
theorem skip (h : Stages source xs ys zs) (hr : Rounds source xs r s) :
    ∃ r', (Ring.system source).Reaches r r' ∧ Rounds source xs r' s ∧
      ∀ c, source[r'.pos]? = some c → isCommand c = true := by
  have hpass : ∀ u, Rounds source xs u s → (∀ c, source[u.pos]? = some c → isCommand c = true) ∨
      ∃ v, (Ring.system source).next u = .ok v ∧ Rounds source xs v s ∧
        source.length - v.pos < source.length - u.pos := by
    intro u hu
    cases hc : source[u.pos]? with
    | none => exact .inl nofun
    | some c =>
      cases hcommand : isCommand c with
      | true => exact .inl fun c' hc' => Option.some.inj hc' ▸ hcommand
      | false =>
        obtain ⟨hnext, hu'⟩ := hu.comment h hc hcommand
        obtain ⟨hlt, -⟩ := List.getElem?_eq_some_iff.mp hc
        refine .inr ⟨_, hnext, hu', ?_⟩
        show source.length - (u.pos + 1) < source.length - u.pos
        omega
  obtain ⟨n, -, r', hr', hskip⟩ := System.settles hpass hr
  exact ⟨r', ⟨n, hr'⟩, hskip⟩

end Rounds

/-- **Generated items run as their source on the ring.** -/
def ring_simulation {source : Str} {xs ys zs : List Item} (h : Stages source xs ys zs) :
    System.Simulation (Ring.system source) (Code.system xs) where
  Rel r s := Rounds source xs r s
  output hr := hr.cout.symm
  advance := by
    intro r s hr
    obtain ⟨r', hr', hround, hcommand⟩ := hr.skip h
    cases hnext : Ring.next source r' with
    | error e =>
      obtain ⟨rfl, hend⟩ := Ring.next_error h.balanced hnext
      exact .inl ⟨.halted, r', s, ⟨hr', hnext⟩, ⟨.refl s, hround.follows.halts h hend⟩, hround.cout.symm⟩
    | ok u =>
      cases hc : source[r'.pos]? with
      | none =>
        simp only [Ring.next, hc] at hnext
        cases hnext
      | some c =>
        obtain ⟨s', hs', hu⟩ := hround.command h hc (hcommand c hc) hnext
        exact .inr ⟨u, s', hr'.trans_progress (.single hnext), hs', hu⟩

namespace Stages
variable {source : Str} {xs ys zs : List Item}

/-- Behind its first instruction, the image is where the source begins. -/
theorem rounds_start (h : Stages source xs ys zs) {s : Code} (hrest : s.rest = xs) (hmem : s.mem = tape)
    (hcout : s.cout = []) :
    ∃ s', (Code.system xs).Reaches s s' ∧ Rounds source xs (.start s.cin) s' := by
  obtain ⟨xs', -, -, hxs, -⟩ := h.head
  exact ⟨_, .single (Code.next_op (hrest.trans hxs)), ⟨_, generates_zero source, hxs⟩, rfl, hmem, rfl, hcout⟩

theorem same_ring (h : Stages source xs ys zs) {s : Code} (hs : s.rest = xs) (hmem : s.mem = tape)
    (hcout : s.cout = []) :
    System.SameBehaviour (Ring.system source) (.start s.cin) (Code.system xs) s := by
  obtain ⟨s', hs', hr⟩ := h.rounds_start hs hmem hcout
  exact ((ring_simulation h).same hr).trans (System.SameBehaviour.of_reaches hs').symm

end Stages

/-- As long as the pointer stays where an endless tape has its first cells, the ring is as
good as that tape. -/
theorem ring_in_range {source : Str} (h : Balanced source) (cin : Stdin)
    (hin : ∀ r, (Reference.system source).Reaches (.start cin) r → r.UsesInRange source) :
    System.SameBehaviour (Reference.system source) (.start cin) (Ring.system source) (.start cin) := by
  obtain ⟨xs, ys, zs, hstages⟩ := stages h
  have hsource := hstages.same_source (s := ⟨0, 0, 0, tape, cin, [], xs⟩) rfl rfl rfl hin
  exact hsource.trans (hstages.same_ring rfl rfl rfl).symm

/-! ### The compiled source -/

/-- **A compiled source runs on the ring**, whatever it does with its pointer and wherever
it is loaded, in every run of the image that comes to no literal of two bytes and takes no
jump that such literals have displaced. -/
theorem compiled_ring (source : Str) (bytes : List Opcode) (hcompile : compile source = .ok bytes) (vm vm' : VM)
    (procs : List Process) (hs : Session vm procs) (p : Process) (hload : vm.load bytes = .ok (p, vm'))
    (cin : Stdin) :
    ∃ code zs, generate source = .ok code ∧ applyLoopOptimizations (applyOptimizations code) = assembly zs ∧
      bytes = image zs ∧
      (OnCourse zs (.headless vm' p cin) →
        System.SameBehaviour (Ring.system source) (.start cin) Machine.system (.headless vm' p cin) ∧
        ((∃ o, Machine.system.EndsWith (.headless vm' p cin) .halted o) ↔
          ∃ e o, (Ring.system source).EndsWith (.start cin) e o) ∧
        ∀ m, Machine.system.Reaches (.headless vm' p cin) m → ∀ e, m.next ≠ .error (.stopped e)) ∧
      (narrowText (assembly zs) = true → OnCourse zs (.headless vm' p cin)) := by
  obtain ⟨xs, ys, zs, h, hfits, rfl⟩ := compiled_stages hcompile
  refine ⟨assembly xs, zs, h.generated, by rw [h.optimized, h.replaced], rfl, fun hcourse => ?_,
    fun htext => (h.narrow hfits htext).onCourse⟩
  obtain ⟨t, -, ht, hmem, rfl, hcout, hfaithful, hmachine⟩ := hcourse.runs hs hload
  have hitems := h.same_items (s := t.goto xs) rfl ht rfl rfl rfl hfaithful
  have hsame := (h.same_ring (s := t.goto xs) rfl hmem hcout).trans (hitems.trans hmachine)
  refine ⟨hsame, ⟨fun ⟨o, ho⟩ => ⟨_, o, (hsame.2 _ o).mpr ho⟩, fun ⟨e, o, ho⟩ => ⟨o, (hsame.2 _ o).mp ?_⟩⟩,
    fun m hm e he => Code.never_stops ((hmachine.2 _ _).mpr ⟨m, ⟨hm, he⟩, rfl⟩)⟩
  obtain ⟨r, ⟨-, hnext⟩, -⟩ := id ho
  obtain ⟨rfl, -⟩ := Ring.next_error h.balanced hnext
  exact ho

/-- The items of `<.`. -/
def leaving : List Item := [.op .mov .a (.num 2), .op .sub .a (.num 1), .print, .halt]

/-- `<.` prints the second byte of the header. -/
theorem compiled_ring_leaving : Machine.system.EndsWith
    (.headless (freshVM (image leaving)) (freshProcess (image leaving)) ⟨[], false⟩) .halted [0x32] := by
  have hgenerate : generate "<.".toList = .ok (assembly leaving) := by decide +kernel
  have hoptimize : applyLoopOptimizations (applyOptimizations (assembly leaving)) = assembly leaving := by
    decide +kernel
  have hassemble : asmToOpcodes (assembly leaving) = .ok (image leaving) :=
    assemble_plain (by simp [leaving, Item.isBracket]) (by simp [leaving, Item.Fits, Fits])
  obtain ⟨code, zs, hcode, hzs, -, hright, hcourse⟩ := compiled_ring _ _
    (compile_eq_ok hgenerate (hoptimize ▸ hassemble)) _ _ _ .fresh _
    (load_fresh (by rw [image_length]; decide)) ⟨[], false⟩
  cases hcode.symm.trans hgenerate
  refine ((hright (hcourse ?_)).1.2 _ _).mp ⟨⟨2, 1, tape, ⟨[], false⟩, [0x32]⟩, ⟨⟨2, rfl⟩, rfl⟩, rfl⟩
  rw [← hzs, hoptimize]
  decide +kernel

end CustomIsaVm.Brainfvck
