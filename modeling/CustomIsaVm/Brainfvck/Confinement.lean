import CustomIsaVm.Brainfvck.Acceptance
import CustomIsaVm.Brainfvck.Running
import CustomIsaVm.Brainfvck.Shape

/-! Compiled programs are confined and can be loaded anywhere.

Where the last stage of a source has literals of one byte only (`Narrow`), the machine
does every item as it is meant. Then `OnCode` is kept by every turn of the loop: PC is at
an item, or between the comparison and the jump of a bracket, or the program has halted.
`compiled_confined` is what follows for the run of a compiled source, whatever base it is
loaded at. -/
namespace CustomIsaVm.Brainfvck
open Text Assembler Exec

/-! ### Instructions of an image -/

/-- The bytes of instructions. -/
def codeSize (ds : List Decoded) : Nat := (ds.map fun d => 1 + encodedSize d.2).sum

theorem decodes_length {bytes : List Opcode} {ds : List Decoded} (h : Decodes bytes ds) :
    codeSize ds = bytes.length := by
  induction h with
  | nil => rfl
  | cons hd _ ih =>
    rw [readInstruction_length hd, ← ih]
    simp [codeSize]

/-- PC is at the first byte of an instruction that the image is made of, behind the tape. -/
def AtInstruction (bytes : List Opcode) (m : Machine) : Prop :=
  m.proc.firstSector.toNat + codeStart ≤ m.proc.pc.toNat ∧
    ∃ above d below, Decodes (bytes.drop 2) (above ++ d :: below) ∧
      m.proc.pc.toNat = m.proc.firstSector.toNat + (2 + codeSize above)

/-- An item is made of instructions. -/
theorem decodes_item {x : Item} (hbyte : x.Byte) (target : Item → MemAddr) :
    ∃ ds, Decodes (x.code target) ds := by
  cases hx : x.isBracket with
  | false =>
    obtain ⟨e, hread, -⟩ := read_item hx hbyte target
    exact ⟨[e], .single hread⟩
  | true =>
    obtain ⟨bytes, e, _, hcode, -, hread, -⟩ := read_bracket hx target
    rw [hcode]
    exact ⟨_, .append (.single (d := (0xB2, [⟨.indirectReg, 1⟩, ⟨.number, 0⟩])) rfl) (.single hread)⟩

theorem decodes_items {xs : List Item} (hbyte : ∀ x ∈ xs, x.Byte) (target : Item → MemAddr) :
    ∃ ds, Decodes (xs.flatMap (Item.code target)) ds := by
  induction xs with
  | nil => exact ⟨[], .nil⟩
  | cons x xs ih =>
    obtain ⟨ds, hds⟩ := decodes_item (hbyte x (List.mem_cons_self ..)) target
    obtain ⟨es, hes⟩ := ih fun y hy => hbyte y (List.mem_cons_of_mem x hy)
    exact ⟨ds ++ es, hds.append hes⟩

/-- The instructions of an image, cut where one of an item begins. -/
theorem At.atInstruction {prog : List Item} {s : Code} {k : Nat} {m : Machine} (h : At prog s k m)
    (hbyte : ∀ x ∈ prog, x.Byte) {x : Item} {rest : List Item} (hrest : s.rest = x :: rest)
    {front bytes back : List Opcode} (hcode : x.code (recorded prog) = front ++ (bytes ++ back))
    (hk : front.length = k) {ds es : List Decoded} {d : Decoded} (hfront : Decodes front ds)
    (hread : readInstruction bytes = some (d, [])) (hback : Decodes back es) :
    AtInstruction (image prog) m := by
  obtain ⟨done, hprog, hpc⟩ := h.pc
  rw [hrest] at hprog
  have hdone : ∀ y ∈ done, y.Byte := fun y hy => hbyte y (by rw [hprog]; simp [hy])
  have hbelow : ∀ y ∈ rest, y.Byte := fun y hy => hbyte y (by rw [hprog]; simp [hy])
  obtain ⟨as, has⟩ := decodes_items hdone (recorded prog)
  obtain ⟨bs, hbs⟩ := decodes_items hbelow (recorded prog)
  have himage : (image prog).drop 2 = List.replicate 30000 0 ++ (done.flatMap (Item.code (recorded prog)) ++
      ((front ++ (bytes ++ back)) ++ rest.flatMap (Item.code (recorded prog)))) := by
    rw [← hcode]
    show List.replicate 30000 0 ++ prog.flatMap (Item.code (recorded prog)) = _
    congr 1
    conv_lhs => rw [hprog, List.flatMap_append, List.flatMap_cons, ← hprog]
  obtain ⟨ts, hts⟩ : ∃ ts, Decodes (List.replicate 30000 0) ts := ⟨_, decodes_replicate 30000⟩
  have hdecodes := hts.append (has.append ((hfront.append ((Decodes.single hread).append hback)).append hbs))
  rw [← himage] at hdecodes
  have hcut : ts ++ (as ++ ((ds ++ ([d] ++ es)) ++ bs)) = (ts ++ (as ++ ds)) ++ d :: (es ++ bs) := by simp
  rw [hcut] at hdecodes
  refine ⟨by rw [hpc]; omega, _, d, _, hdecodes, ?_⟩
  have hsum : ∀ a b : List Decoded, codeSize (a ++ b) = codeSize a + codeSize b := by simp [codeSize]
  have hstart : codeStart = 30002 := rfl
  rw [hsum, hsum, decodes_length hts, decodes_length has, decodes_length hfront,
    List.length_replicate, code_flatMap_length, hpc, hk]
  omega

/-! ### Narrow programs -/

/-- A stage whose literals are all of one byte. -/
structure Narrow (prog : List Item) : Prop where
  byte : ∀ x ∈ prog, x.Byte
  halting : Halting prog
  brackets : WellBracketed prog

theorem counted_eq {xs : List Item} (h : ∀ x ∈ xs, x.Byte) : counted xs = size xs := by
  induction xs with
  | nil => rfl
  | cons x xs ih =>
    have hx : x.counted = x.size := by
      cases x with
      | op o d src =>
        cases src with
        | place p => cases d <;> cases p <;> rfl
        | num v =>
          have hv : ¬ 255 < v := Int.not_lt.mpr (h _ (List.mem_cons_self ..))
          rw [Item.size, Item.code, Source.code, if_neg hv]
          cases d <;> rfl
      | print => rfl
      | input => rfl
      | halt => rfl
      | loopStart id => rfl
      | loopEnd id => rfl
    rw [counted_cons, size_cons, hx, ih fun y hy => h y (List.mem_cons_of_mem x hy)]

theorem next_suffix {p : List Item} {s t : Code} (h : (Code.system p).next s = .ok t) (hs : s.rest <:+ p) :
    t.rest <:+ p := by
  have htail : ∀ {x rest}, s.rest = x :: rest → rest <:+ p := fun hrest =>
    (List.suffix_cons _ _).trans (hrest ▸ hs)
  cases hrest : s.rest with
  | nil =>
    rw [Code.next_nil hrest] at h
    cases h
  | cons x rest =>
    cases hx : x.isBracket with
    | true =>
      rw [Code.next_bracket hrest hx] at h
      cases h
      rw [Code.goto_rest]
      split
      · exact seek_suffix _ p
      · exact htail hrest
    | false =>
      cases x with
      | op => rw [Code.next_op hrest] at h; cases h; exact htail hrest
      | print => rw [Code.next_print hrest] at h; cases h; exact htail hrest
      | input => rw [Code.next_input hrest] at h; cases h; exact htail hrest
      | halt => rw [Code.next_halt hrest] at h; cases h
      | loopStart id => cases hx
      | loopEnd id => cases hx

namespace Narrow
variable {prog : List Item}

theorem lands (h : Narrow prog) (x : Item) : Lands prog x :=
  counted_eq fun y hy => h.byte y ((List.takeWhile_prefix _).subset hy)

/-- The machine does every item of a narrow program as it is meant. -/
theorem faithful (h : Narrow prog) {s : Code} (hs : s.rest <:+ prog) : s.Faithful prog where
  byte x hx := h.byte x (hs.subset (List.mem_of_mem_head? hx))
  lands x _ := h.lands x

theorem all_faithful (h : Narrow prog) {s : Code} (hs : s.rest <:+ prog) :
    ∀ t, (Code.system prog).Reaches s t → t.Faithful prog := fun _ ht =>
  h.faithful (ht.invariant (I := fun t => t.rest <:+ prog) (fun _ _ hu hnext => next_suffix hnext hu) hs)

theorem onCourse (h : Narrow prog) {m₀ : Machine} : OnCourse prog m₀ := fun _ _ _ hat =>
  h.faithful (let ⟨done, hdone, _⟩ := hat.pc; ⟨done, hdone.symm⟩)

/-- Only `HALT` is the last item. -/
theorem more (h : Narrow prog) {done rest : List Item} {x : Item} (hprog : prog = done ++ x :: rest)
    (hx : x ≠ .halt) : ∃ y rest', rest = y :: rest' := by
  have hrest := h.halting
  rw [hprog] at hrest
  rcases halting_cons.mp (hrest.rest (List.cons_ne_nil x rest)) with ⟨heq, -⟩ | ⟨-, front, rfl, -⟩
  · exact absurd heq hx
  · exact List.exists_cons_of_ne_nil (by simp)

end Narrow

/-! ### The invariant -/

/-- The machine is at an item, or at the jump of a bracket, or has halted at the end. -/
inductive OnCode (prog : List Item) (m : Machine) : Prop
  | item {s : Code} {x : Item} {rest : List Item} (h : At prog s 0 m) (hrest : s.rest = x :: rest)
  | jump {s : Code} {x : Item} {rest : List Item} (h : At prog s 5 m) (hrest : s.rest = x :: rest)
      (hx : x.isBracket = true) (hzero : m.zero = (s.get .cell == 0))
  | halted (h : m.proc.running = false) (hpc : m.proc.pc = m.proc.lastCodeSector)

/-- **Every turn of the loop stays on the code**, and writes to the tape only. -/
theorem OnCode.next {prog : List Item} {m : Machine} (h : OnCode prog m) (hnarrow : Narrow prog) :
    m.next = .error .halted ∨ ∃ m', m.next = .ok m' ∧ OnTape m m' ∧ OnCode prog m' := by
  cases h with
  | halted h hpc => exact .inl (next_stopped h)
  | @jump s x rest h hrest hx hzero =>
    obtain ⟨done, hprog, -⟩ := h.pc
    rw [hrest] at hprog
    obtain ⟨s', m', hs', hm', hon, hat⟩ := h.next_jump hzero hrest hx fun y _ => hnarrow.lands y
    refine .inr ⟨m', hm', hon, ?_⟩
    rw [Code.next_bracket hrest hx] at hs'
    cases hs'
    have hrest' : ∃ y rest', (if x.jumps (s.get .cell) then seek x.partner prog else rest) = y :: rest' := by
      split
      · have hmem : x.partner ∈ prog := hnarrow.brackets.partner x (by rw [hprog]; simp) hx
        obtain ⟨above, below, hcut⟩ := List.append_of_mem hmem
        have hunique := hnarrow.brackets.unique
        rw [hcut] at hunique
        rw [hcut, seek_unique hunique (Item.isBracket_partner hx)]
        exact ⟨_, _, rfl⟩
      · exact hnarrow.more hprog (by rintro rfl; cases hx)
    obtain ⟨y, rest', hcons⟩ := hrest'
    exact .item hat hcons
  | @item s x rest h hrest =>
    obtain ⟨done, hprog, hpc⟩ := h.pc
    rw [hrest] at hprog
    cases hx : x.isBracket with
    | true =>
      obtain ⟨m', hm', hon, hat, hzero⟩ := h.next_compare hrest hx
      exact .inr ⟨m', hm', hon, .jump hat hrest hx hzero⟩
    | false =>
      by_cases hhalt : x = .halt
      · subst hhalt
        obtain ⟨m', hm', hon, hstopped, -, hpc'⟩ := h.next_halt hrest
        refine .inr ⟨m', hm', hon, .halted hstopped (UInt16.toNat_inj.mp ?_)⟩
        have hnil : rest = [] := by
          have hhalting := hnarrow.halting
          rw [hprog] at hhalting
          rcases halting_cons.mp (hhalting.rest (List.cons_ne_nil _ rest)) with ⟨-, hnil⟩ | ⟨hne, -⟩
          · exact hnil
          · exact absurd rfl hne
        have hsize : size prog = size done + 1 := by rw [hprog, hnil, size_append]; rfl
        rw [hon.layout.lastCodeSector, h.placed.loaded.lastCodeSector, hpc', hpc, hsize]
        omega
      · obtain ⟨y, rest', hcons⟩ := hnarrow.more hprog hhalt
        obtain ⟨s', m', -, hrest', hm', hon, hat⟩ := h.next_plain hrest hx hhalt
          (hnarrow.byte x (by rw [hprog]; simp))
        exact .inr ⟨m', hm', hon, .item hat (hrest'.trans hcons)⟩

/-- On the code, PC is at an instruction, or the program has halted at its end. -/
theorem OnCode.atInstruction {prog : List Item} {m : Machine} (h : OnCode prog m) (hnarrow : Narrow prog) :
    AtInstruction (image prog) m ∨ m.proc.running = false ∧ m.proc.pc = m.proc.lastCodeSector := by
  cases h with
  | halted h hpc => exact .inr ⟨h, hpc⟩
  | @jump s x rest h hrest hx hzero =>
    obtain ⟨bytes, e, _, hcode, -, hread, -⟩ := read_bracket hx (recorded prog)
    rw [← List.append_nil bytes] at hcode
    exact .inl (h.atInstruction hnarrow.byte hrest hcode rfl
      (.single (d := (0xB2, [⟨.indirectReg, 1⟩, ⟨.number, 0⟩])) rfl) hread .nil)
  | @item s x rest h hrest =>
    left
    cases hx : x.isBracket with
    | true =>
      obtain ⟨bytes, e, _, hcode, -, hread, -⟩ := read_bracket hx (recorded prog)
      have hcmp : readInstruction [0xB2, 3, 1, 0, 0] = some ((0xB2, [⟨.indirectReg, 1⟩, ⟨.number, 0⟩]), []) := rfl
      rw [← List.nil_append ([0xB2, 3, 1, 0, 0] ++ bytes)] at hcode
      exact h.atInstruction hnarrow.byte hrest hcode rfl .nil hcmp (.single hread)
    | false =>
      obtain ⟨done, hprog, -⟩ := h.pc
      rw [hrest] at hprog
      obtain ⟨e, hread, -⟩ := read_item hx (hnarrow.byte x (by rw [hprog]; simp)) (recorded prog)
      have hcode : x.code (recorded prog) = [] ++ (x.code (recorded prog) ++ []) := by simp
      exact h.atInstruction hnarrow.byte hrest hcode rfl .nil hread .nil

/-- A narrow program stays on its code for its whole run. -/
theorem onCode_run {prog : List Item} (hnarrow : Narrow prog) {m₀ m : Machine} (h : OnCode prog m₀)
    (hrun : Machine.system.Reaches m₀ m) : OnTape m₀ m ∧ OnCode prog m := by
  refine hrun.invariant (I := fun m => OnTape m₀ m ∧ OnCode prog m) ?_ ⟨.refl m₀, h⟩
  rintro m m' ⟨hon, hcode⟩ hnext
  rcases hcode.next hnarrow with herror | ⟨m'', hm'', hon', hcode'⟩
  · cases herror.symm.trans hnext
  · cases hm''.symm.trans hnext
    exact ⟨hon.trans hon', hcode'⟩

/-! ### Compiled sources -/

/-- The line is no `ADD`, `SUB` or `MUL` with a literal above 255. -/
def narrowLine (line : Str) : Bool :=
  match instructionOf line with
  | [mnemonic, _, arg] =>
    !(["ADD".toList, "SUB".toList, "MUL".toList].contains mnemonic) || (fromChars arg).all (· ≤ 255)
  | _ => true

def narrowText (text : Str) : Bool := (getlines text).all narrowLine

theorem wide_of_byte {x : Item} (h : x.Byte) : x.wide = false := by
  unfold Item.wide
  split <;> first | rfl | exact decide_eq_false (Int.not_lt.mpr h)

/-- Only balanced sources are translated. -/
theorem balanced_of_generate {source text : Str} (h : generate source = .ok text) : Balanced source := by
  by_contra hnot
  by_cases hover : Overclosed source
  · rw [generate_overclosed hover] at h
    cases h
  · rw [generate_open hover fun hcount => hnot ⟨hover, hcount⟩] at h
    cases h

/-- Only balanced sources compile, and to the image of their last stage. -/
theorem compiled_stages {source : Str} {bytes : List Opcode} (h : compile source = .ok bytes) :
    ∃ xs ys zs, Stages source xs ys zs ∧ (∀ z ∈ zs, z.Fits) ∧ bytes = image zs := by
  obtain ⟨text, htext, -⟩ := Fold.bind_eq_ok.mp h
  obtain ⟨xs, ys, zs, hstages⟩ := stages (balanced_of_generate htext)
  rw [compile, hstages.generated] at h
  obtain ⟨code, hcode, h⟩ := Fold.bind_eq_ok.mp h
  cases hcode
  rw [hstages.optimized, hstages.replaced, assemble] at h
  split at h
  next bytes' hassemble =>
    cases h
    exact ⟨xs, ys, zs, hstages, assembled_items hstages.brackets_replaced hassemble⟩
  next => cases h

/-- Where no literal of the text is above 255, none of the items is. -/
theorem narrow_of_text {prog : List Item} (hhalting : Halting prog) (hbrackets : WellBracketed prog)
    (hmoves : ∀ x ∈ prog, x.MovesFixed) (hfits : ∀ x ∈ prog, x.Fits)
    (htext : narrowText (assembly prog) = true) : Narrow prog := by
  refine ⟨fun z hz => ?_, hhalting, hbrackets⟩
  unfold Item.Byte
  split
  next o d v =>
    have hwords := instructionOf_written (clean_mnemonic (opcode_operation o)) (clean_pair d (.num v))
    have hline : written o.text [d.text, (Source.num v).text] ∈ getlines (assembly prog) := by
      rw [getlines_assembly]
      refine List.mem_append_right _ (List.mem_flatMap.mpr ⟨_, hz, ?_⟩)
      rw [lines_op]
      exact List.mem_singleton_self _
    have hfrom : fromChars (Source.num v).text = some v := fromChars_fits (hfits _ hz)
    have hliteral := List.all_eq_true.mp htext _ hline
    rw [narrowLine, hwords] at hliteral
    simp only [hfrom, Option.all_some, Bool.or_eq_true, decide_eq_true_eq] at hliteral
    cases o with
    | mov => rcases hmoves _ hz d v rfl with rfl | rfl <;> decide
    | add => exact hliteral.resolve_left (by decide)
    | sub => exact hliteral.resolve_left (by decide)
    | mul => exact hliteral.resolve_left (by decide)
  next => trivial

namespace Stages
variable {source : Str} {xs ys zs : List Item}

theorem narrow (h : Stages source xs ys zs) (hfits : ∀ z ∈ zs, z.Fits) (htext : narrowText (assembly zs) = true) :
    Narrow zs :=
  narrow_of_text h.halting h.brackets_replaced h.movesFixed hfits htext

theorem narrow_merged (h : Stages source xs ys zs) (hfits : ∀ y ∈ ys, y.Fits)
    (htext : narrowText (assembly ys) = true) : Narrow ys :=
  narrow_of_text h.halting_merged h.brackets_merged h.movesFixed_merged hfits htext

/-- The merged stage and the last one, on the same tape: behind their first instruction
they have met. What the registers hold at the start is not seen. -/
theorem meet (h : Stages source xs ys zs) {s t : Code} (hs : s.rest = ys) (ht : t.rest = zs)
    (hmem : s.mem = t.mem) (hcin : s.cin = t.cin) (hcout : s.cout = t.cout)
    (hfaithful : ∀ u, (Code.system zs).Reaches t u → u.Faithful zs) :
    System.SameBehaviour (Code.system ys) s (Code.system zs) t := by
  obtain ⟨xs', ys', zs', -, hys, hzs, -, hlooped⟩ := h.head
  have hemitted := h.merged.emitted h.units
  have hloops : ∀ {u t}, InLoops ys zs u t → System.SameBehaviour (Code.system ys) u (Code.system zs) t :=
    (loop_simulation h.looped h.brackets_merged.unique (fun y hy => (hemitted y hy).plain)
      h.brackets_merged.partner).same
  have hstep := Code.next_op (p := ys) (hs.trans hys)
  have hstep' := Code.next_op (p := zs) (ht.trans hzs)
  have hin : InLoops ys zs ((s.set 2 .a).goto ys') ((t.set 2 .a).goto zs') :=
    ⟨⟨rfl, hmem, hcin, hcout⟩, hlooped, hys ▸ List.suffix_cons _ ys', hzs ▸ List.suffix_cons _ zs',
      fun u hu x hx => wide_of_byte ((hfaithful u ((System.Reaches.single hstep').trans hu)).byte x hx)⟩
  exact (System.SameBehaviour.step hstep).trans ((hloops hin).trans (System.SameBehaviour.step hstep').symm)

theorem same_start (h : Stages source xs ys zs) (hnarrow : Narrow zs) {s t : Code} (hs : s.rest = zs)
    (ht : t.rest = zs) (hmem : s.mem = t.mem) (hcin : s.cin = t.cin) (hcout : s.cout = t.cout) :
    System.SameBehaviour (Code.system zs) s (Code.system zs) t :=
  (h.meet (s := s.goto ys) rfl hs rfl rfl rfl (hnarrow.all_faithful (hs ▸ List.suffix_refl zs))).symm.trans
    (h.meet (s := s.goto ys) rfl ht hmem hcin hcout (hnarrow.all_faithful (ht ▸ List.suffix_refl zs)))

end Stages

/-- **A compiled source is confined to the first 256 cells of its segment and behaves alike
at every base.** -/
theorem compiled_confined (source : Str) (bytes : List Opcode) (hcompile : compile source = .ok bytes)
    (hnarrow : ∀ text, generate source = .ok text →
      narrowText (applyLoopOptimizations (applyOptimizations text)) = true)
    (vm vm' : VM) (procs : List Process) (p : Process) (hs : Session vm procs)
    (hload : vm.load bytes = .ok (p, vm')) (cin : Stdin) :
    (∀ m, Machine.system.Reaches (.headless vm' p cin) m →
      (AtInstruction bytes m ∨ m.proc.running = false ∧ m.proc.pc = m.proc.lastCodeSector) ∧
      (∀ i, m.Wrote i → p.firstSector.toNat ≤ i ∧ i ≤ p.firstSector.toNat + 255) ∧
      (∀ i, ¬ (p.firstSector.toNat ≤ i ∧ i ≤ p.firstSector.toNat + 255) → m.ram i = vm'.ram i) ∧
      m.proc.sp = p.sp ∧ ∀ e, m.next ≠ .error (.stopped e)) ∧
    ∀ vm₂ vm₂' procs₂ p₂, Session vm₂ procs₂ → vm₂.load bytes = .ok (p₂, vm₂') →
      System.SameBehaviour Machine.system (.headless vm' p cin) Machine.system (.headless vm₂' p₂ cin) := by
  obtain ⟨xs, ys, zs, hstages, hfits, rfl⟩ := compiled_stages hcompile
  have htext := hnarrow _ hstages.generated
  rw [hstages.optimized, hstages.replaced] at htext
  have hzs := hstages.narrow hfits htext
  obtain ⟨s, hat, hrest, hmem, hcin, hcout, -, hsame⟩ := hzs.onCourse.runs hs hload
  refine ⟨fun m hrun => ?_, fun vm₂ vm₂' procs₂ p₂ hs₂ hload₂ => ?_⟩
  · obtain ⟨-, -, zs', -, -, hcons, -⟩ := hstages.head
    obtain ⟨hon, hcode⟩ := onCode_run hzs (.item hat (hrest.trans hcons)) hrun
    refine ⟨hcode.atInstruction hzs, fun i hi => ?_, hon.ram, hon.sp, fun e he => ?_⟩
    · exact (hon.wrote i hi).resolve_left (by simp [Machine.Wrote, Machine.headless, Machine.boot])
    · rcases hcode.next hzs with herror | ⟨m', hm', -⟩
      · cases herror.symm.trans he
      · cases hm'.symm.trans he
  · obtain ⟨s₂, -, hrest₂, hmem₂, hcin₂, hcout₂, -, hsame₂⟩ := hzs.onCourse.runs hs₂ hload₂
    exact hsame.symm.trans ((hstages.same_start hzs hrest hrest₂ (hmem.trans hmem₂.symm)
      (hcin.trans hcin₂.symm) (hcout.trans hcout₂.symm)).trans hsame₂)

/-- The last stage of `+[.-]`. -/
def countdown : List Item :=
  [.op .mov .a (.num 2), .op .add .cell (.num 1), .loopStart 0, .print, .op .sub .cell (.num 1), .loopEnd 0, .halt]

theorem compiled_confined_countdown : (freshProcess (image countdown)).firstSector = 0 ∧ ∀ m,
    Machine.system.Reaches (.headless (freshVM (image countdown)) (freshProcess (image countdown)) ⟨[], false⟩) m →
      (∀ i, m.Wrote i → i ≤ 255) ∧ ∀ e, m.next ≠ .error (.stopped e) := by
  have hgenerate : generate "+[.-]".toList = .ok (assembly countdown) := rfl
  have hoptimized : applyLoopOptimizations (applyOptimizations (assembly countdown)) = assembly countdown := by
    decide +kernel
  have hassemble : asmToOpcodes (assembly countdown) = .ok (image countdown) := by
    have hunique : (countdown.filter Item.isBracket).Nodup := by decide
    refine assemble_items ⟨hunique, by decide⟩ ?_
    simp [countdown, Item.Fits, Fits]
  have hcompile : compile "+[.-]".toList = .ok (image countdown) :=
    compile_eq_ok hgenerate (hoptimized.symm ▸ hassemble)
  have hload : VM.fresh.load (image countdown) = _ := load_fresh (by rw [image_length]; decide)
  have hnarrow : ∀ text, generate "+[.-]".toList = .ok text →
      narrowText (applyLoopOptimizations (applyOptimizations text)) = true := by
    intro text htext
    cases hgenerate.symm.trans htext
    rw [hoptimized]
    decide +kernel
  refine ⟨rfl, fun m hm => ?_⟩
  obtain ⟨-, hwrote, -, -, hnext⟩ :=
    (compiled_confined _ _ hcompile hnarrow _ _ _ _ .fresh hload ⟨[], false⟩).1 m hm
  refine ⟨fun i hi => ?_, hnext⟩
  have hbase : (freshProcess (image countdown)).firstSector.toNat = 0 := rfl
  have := (hwrote i hi).2
  rwa [hbase, Nat.zero_add] at this

end CustomIsaVm.Brainfvck
