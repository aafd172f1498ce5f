import CustomIsaVm.Brainfvck.Reference

/-! Compilation, end to end.

A source and the items generated from it meet at every command (`source_simulation`); the
passes and the machine take it from there. What the machine does not take are literals of
two bytes, and jumps over them: `OnCourse` says that a run comes to neither. Then the
image runs as the code before optimization does (`optimized_alike`), and as the source
(`compiled_correct`) wherever register A can follow the pointer. -/
namespace CustomIsaVm.Brainfvck
open Text Assembler

/-! ### The source and its items -/

namespace Follows
variable {source : Str} {xs ys zs : List Item} {r : Reference} {s : Code}

/-- Past the comments, to a command or to the end. -/
theorem skip (h : Stages source xs ys zs) (hf : Follows source xs r s) :
    ∃ r', (Reference.system source).Reaches r r' ∧ Follows source xs r' s ∧
      ∀ c, source[r'.pos]? = some c → isCommand c = true := by
  induction hn : source.length - r.pos generalizing r with
  | zero =>
    refine ⟨r, .refl r, hf, fun c hc => ?_⟩
    rw [List.getElem?_eq_none_iff.mpr (by omega)] at hc
    cases hc
  | succ n ih =>
    cases hc : source[r.pos]? with
    | none => exact ⟨r, .refl r, hf, fun c hc' => by cases hc.symm.trans hc'⟩
    | some c =>
      cases hcommand : isCommand c with
      | true =>
        refine ⟨r, .refl r, hf, fun c' hc' => ?_⟩
        cases hc.symm.trans hc'
        exact hcommand
      | false =>
        obtain ⟨hnext, hf'⟩ := hf.comment h hc hcommand
        have hlength : source.length - (r.goto (r.pos + 1)).pos = n := by
          show source.length - (r.pos + 1) = n
          omega
        obtain ⟨r', hr', hskip⟩ := ih hf' hlength
        exact ⟨r', (System.Reaches.single hnext).trans hr', hskip⟩

/-- At the end of the source only `HALT` is left. -/
theorem halts (h : Stages source xs ys zs) (hf : Follows source xs r s) (hend : source[r.pos]? = none) :
    (Code.system xs).next s = .error .halted := by
  obtain ⟨g, hg, hxs⟩ := hf.code
  obtain ⟨g', hg', hxs'⟩ := h.emits
  rw [Generates, List.take_of_length_le (List.getElem?_eq_none_iff.mp hend)] at hg
  cases hg.symm.trans hg'
  exact Code.next_halt (List.append_cancel_left (hxs.symm.trans hxs'))

end Follows

/-- **Generated items run as their source**, as long as every command that uses a cell
finds the pointer in range. -/
def source_simulation {source : Str} {xs ys zs : List Item} (h : Stages source xs ys zs) :
    System.Simulation (Reference.system source) (Code.system xs) where
  Rel r s := Follows source xs r s ∧ ∀ u, (Reference.system source).Reaches r u → u.UsesInRange source
  output hr := hr.1.cout.symm
  advance := by
    rintro r s ⟨hf, hin⟩
    obtain ⟨r', hr', hf', hcommand⟩ := hf.skip h
    cases hnext : Reference.next source r' with
    | error e =>
      obtain ⟨rfl, hend⟩ := Reference.next_error h.balanced hnext
      exact .inl ⟨.halted, r', s, ⟨hr', hnext⟩, ⟨.refl s, hf'.halts h hend⟩, hf'.cout.symm⟩
    | ok u =>
      cases hc : source[r'.pos]? with
      | none =>
        simp only [Reference.next, hc] at hnext
        cases hnext
      | some c =>
        obtain ⟨s', hs', hfu⟩ := hf'.command h (hin r' hr') hc (hcommand c hc) hnext
        have hru : (Reference.system source).Progress r u := hr'.trans_progress (.single hnext)
        exact .inr ⟨u, s', hru, hs', hfu, fun v hv => hin v (hru.reaches.trans hv)⟩

namespace Stages
variable {source : Str} {xs ys zs : List Item}

theorem same_source (h : Stages source xs ys zs) {s : Code} (hs : s.rest = xs) (hmem : s.mem = tape)
    (hcout : s.cout = []) (hin : ∀ r, (Reference.system source).Reaches (.start s.cin) r → r.UsesInRange source) :
    System.SameBehaviour (Reference.system source) (.start s.cin) (Code.system xs) s := by
  obtain ⟨s', hs', hf⟩ := h.follows_start hs hmem hcout
  exact ((source_simulation h).same ⟨hf, hin⟩).trans (System.SameBehaviour.of_reaches hs').symm

/-- The first stage and the last one, on the same tape. -/
theorem same_items (h : Stages source xs ys zs) {s t : Code} (hs : s.rest = xs) (ht : t.rest = zs)
    (hmem : s.mem = t.mem) (hcin : s.cin = t.cin) (hcout : s.cout = t.cout)
    (hfaithful : ∀ u, (Code.system zs).Reaches t u → u.Faithful zs) :
    System.SameBehaviour (Code.system xs) s (Code.system zs) t := by
  have hmerge : InMerge s (s.goto ys) :=
    ⟨⟨rfl, rfl, rfl, rfl⟩, by rw [hs]; exact h.merged, by rw [hs]; exact h.plain⟩
  exact ((merge_simulation h.merged h.plain).same hmerge).trans (h.meet rfl ht hmem hcin hcout hfaithful)

end Stages

/-! ### What the machine does not take -/

/-- The run comes to a literal of two bytes. -/
def MeetsWide (prog : List Item) (m₀ : Machine) : Prop :=
  ∃ m s, Machine.system.Reaches m₀ m ∧ At prog s 0 m ∧ ∃ x ∈ s.rest.head?, ¬ x.Byte

/-- A literal of two bytes makes the machine throw. -/
theorem MeetsWide.stops {prog : List Item} {m₀ : Machine} (h : MeetsWide prog m₀) :
    ∃ e o, Machine.system.EndsWith m₀ (.stopped e) o := by
  obtain ⟨m, s, hm, hat, x, hx, hwide⟩ := h
  obtain ⟨rest, hrest⟩ := List.head?_eq_some_iff.mp hx
  unfold Item.Byte at hwide
  split at hwide
  · exact ⟨_, _, m, ⟨hm, hat.next_wide hrest (Int.not_le.mp hwide)⟩, rfl⟩
  · exact absurd trivial hwide

/-- Items end with `HALT`, or behind the last of them. -/
theorem Code.never_stops {prog : List Item} {s : Code} {e : Stop} {o : List MemCell} :
    ¬ (Code.system prog).EndsWith s (.stopped e) o := by
  rintro ⟨t, ⟨-, herror⟩, -⟩
  rcases Code.next_error herror with ⟨heq, -⟩ | ⟨heq, -⟩ <;> cases heq

/-! ### The optimized image -/

namespace Stages
variable {source : Str} {xs ys zs : List Item} {vm : VM} {p : Process}

/-- The code before optimization runs as its items, and never throws. -/
theorem direct (h : Stages source xs ys zs) (hload : VM.fresh.load (image xs) = .ok (p, vm)) (cin : Stdin) :
    ∃ s : Code, s.rest = xs ∧ s.mem = tape ∧ s.cin = cin ∧ s.cout = [] ∧
      System.SameBehaviour (Code.system xs) s Machine.system (.headless vm p cin) ∧
      ∀ e o, ¬ Machine.system.EndsWith (.headless vm p cin) (.stopped e) o := by
  obtain ⟨s, -, hrest, hmem, hcin, hcout, -, hsame⟩ := h.narrow_emitted.onCourse.runs .fresh hload
  exact ⟨s, hrest, hmem, hcin, hcout, hsame, fun e o he => Code.never_stops ((hsame.2 _ o).mpr he)⟩

end Stages

/-- **Optimization preserves behaviour** in every run of the optimized image that comes to no
literal of two bytes, and takes no jump that such literals have displaced; a run that comes
to one throws, and without optimization none does. -/
theorem optimized_alike (source code : Str) (b₁ b₂ : List Opcode) (hcode : generate source = .ok code)
    (h₁ : asmToOpcodes code = .ok b₁)
    (h₂ : asmToOpcodes (applyLoopOptimizations (applyOptimizations code)) = .ok b₂) (vm₁ vm₂ : VM)
    (p₁ p₂ : Process) (hload₁ : VM.fresh.load b₁ = .ok (p₁, vm₁)) (hload₂ : VM.fresh.load b₂ = .ok (p₂, vm₂))
    (cin : Stdin) : ∃ zs, applyLoopOptimizations (applyOptimizations code) = assembly zs ∧ b₂ = image zs ∧
      (OnCourse zs (.headless vm₂ p₂ cin) →
        System.SameBehaviour Machine.system (.headless vm₁ p₁ cin) Machine.system (.headless vm₂ p₂ cin)) ∧
      (MeetsWide zs (.headless vm₂ p₂ cin) →
        ¬ System.SameBehaviour Machine.system (.headless vm₁ p₁ cin) Machine.system (.headless vm₂ p₂ cin)) ∧
      (narrowText (assembly zs) = true → OnCourse zs (.headless vm₂ p₂ cin)) := by
  obtain ⟨xs, ys, zs, h⟩ := stages (balanced_of_generate hcode)
  cases h.generated.symm.trans hcode
  cases h.assembles.symm.trans h₁
  rw [h.optimized, h.replaced] at h₂ ⊢
  obtain ⟨hfits, rfl⟩ := assembled_items h.brackets_replaced h₂
  obtain ⟨s, hs, hmem, hcin, hcout, hsame, hnever⟩ := h.direct hload₁ cin
  refine ⟨zs, rfl, rfl, fun hcourse => ?_, fun hwide halike => ?_, fun htext => (h.narrow hfits htext).onCourse⟩
  · obtain ⟨t, -, ht, hmem', hcin', hcout', hfaithful, hsame'⟩ := hcourse.runs .fresh hload₂
    exact hsame.symm.trans ((h.same_items hs ht (hmem.trans hmem'.symm) (hcin.trans hcin'.symm)
      (hcout.trans hcout'.symm) hfaithful).trans hsame')
  · obtain ⟨e, o, he⟩ := hwide.stops
    exact hnever e o ((halike.2 _ o).mpr he)

/-- The items of `++.`, as generated and with the run merged. -/
def printsTwo : List Item :=
  [.op .mov .a (.num 2), .op .add .cell (.num 1), .op .add .cell (.num 1), .print, .halt]

def printsTwoMerged : List Item := [.op .mov .a (.num 2), .op .add .cell (.num 2), .print, .halt]

/-- A list without brackets assembles to its image. -/
theorem assemble_plain {prog : List Item} (hplain : ∀ x ∈ prog, x.isBracket = false)
    (hfits : ∀ x ∈ prog, x.Fits) : asmToOpcodes (assembly prog) = .ok (image prog) := by
  have hnone : prog.filter Item.isBracket = [] := List.filter_eq_nil_iff.mpr fun x hx => by simp [hplain x hx]
  have hunique : UniqueBrackets prog := by
    unfold UniqueBrackets
    rw [hnone]
    exact List.nodup_nil
  refine assemble_items ⟨hunique, fun x hx hb => ?_⟩ hfits
  rw [hplain x hx] at hb
  cases hb

theorem generate_printsTwo : generate "++.".toList = .ok (assembly printsTwo) := by decide +kernel

theorem optimize_printsTwo :
    applyLoopOptimizations (applyOptimizations (assembly printsTwo)) = assembly printsTwoMerged := by
  decide +kernel

theorem assemble_printsTwo : asmToOpcodes (assembly printsTwo) = .ok (image printsTwo) :=
  assemble_plain (by simp [printsTwo, Item.isBracket]) (by simp [printsTwo, Item.Fits, Fits])

theorem assemble_printsTwoMerged : asmToOpcodes (assembly printsTwoMerged) = .ok (image printsTwoMerged) :=
  assemble_plain (by simp [printsTwoMerged, Item.isBracket]) (by simp [printsTwoMerged, Item.Fits, Fits])

theorem optimized_alike_printsTwo : System.SameBehaviour
    Machine.system (.headless (freshVM (image printsTwo)) (freshProcess (image printsTwo)) ⟨[], false⟩)
    Machine.system
    (.headless (freshVM (image printsTwoMerged)) (freshProcess (image printsTwoMerged)) ⟨[], false⟩) := by
  obtain ⟨zs, hzs, -, halike, -, hcourse⟩ := optimized_alike _ _ _ _ generate_printsTwo assemble_printsTwo
    (optimize_printsTwo ▸ assemble_printsTwoMerged) _ _ _ _ (load_fresh (by rw [image_length]; decide))
    (load_fresh (by rw [image_length]; decide)) ⟨[], false⟩
  refine halike (hcourse ?_)
  rw [← hzs, optimize_printsTwo]
  decide +kernel

/-! ### Too long a run -/

/-- A run whose sum has two bytes, its items, and the one they are merged to. -/
def pluses : Str := List.replicate 256 '+'

def plusesEmitted : List Item := .op .mov .a (.num 2) :: (List.replicate 256 (.op .add .cell (.num 1)) ++ [.halt])

def plusesMerged : List Item := [.op .mov .a (.num 2), .op .add .cell (.num 256), .halt]

theorem generate_pluses : generate pluses = .ok (assembly plusesEmitted) := by decide +kernel

theorem optimize_pluses :
    applyLoopOptimizations (applyOptimizations (assembly plusesEmitted)) = assembly plusesMerged := by
  decide +kernel

theorem mem_plusesEmitted {x : Item} (hx : x ∈ plusesEmitted) :
    x = .op .mov .a (.num 2) ∨ x = .op .add .cell (.num 1) ∨ x = .halt := by
  rcases List.mem_cons.mp hx with hx | hx
  · exact .inl hx
  · rcases List.mem_append.mp hx with hx | hx
    · exact .inr (.inl (List.eq_of_mem_replicate hx))
    · exact .inr (.inr (List.mem_singleton.mp hx))

theorem assemble_plusesEmitted : asmToOpcodes (assembly plusesEmitted) = .ok (image plusesEmitted) := by
  refine assemble_plain (fun x hx => ?_) fun x hx => ?_
  · rcases mem_plusesEmitted hx with rfl | rfl | rfl <;> rfl
  · rcases mem_plusesEmitted hx with rfl | rfl | rfl <;> simp [Item.Fits, Fits]

theorem assemble_plusesMerged : asmToOpcodes (assembly plusesMerged) = .ok (image plusesMerged) :=
  assemble_plain (by simp [plusesMerged, Item.isBracket]) (by simp [plusesMerged, Item.Fits, Fits])

/-- The image throws at the sum. -/
theorem plusesMerged_stops {vm : VM} {p : Process} (hload : VM.fresh.load (image plusesMerged) = .ok (p, vm))
    (cin : Stdin) : ∃ e o, Machine.system.EndsWith (.headless vm p cin) (.stopped e) o := by
  obtain ⟨s, hat, hrest, -⟩ := at_load .fresh hload cin
  obtain ⟨s', m', -, hrest', hm', -, hat'⟩ := hat.next_plain hrest rfl nofun (show (2 : Int) ≤ 255 by decide)
  refine MeetsWide.stops ⟨m', s', .single hm', hat', _, by rw [hrest']; rfl, ?_⟩
  show ¬ (256 : Int) ≤ 255
  decide

/-- 256 times `+`: merged to one addition that throws. -/
theorem optimized_differs : ∃ code b₁ b₂ vm₁ vm₂ p₁ p₂, generate pluses = .ok code ∧ asmToOpcodes code = .ok b₁ ∧
    asmToOpcodes (applyLoopOptimizations (applyOptimizations code)) = .ok b₂ ∧
    VM.fresh.load b₁ = .ok (p₁, vm₁) ∧ VM.fresh.load b₂ = .ok (p₂, vm₂) ∧
    (∃ e o, Machine.system.EndsWith (.headless vm₂ p₂ ⟨[], false⟩) (.stopped e) o) ∧
    ∀ e o, ¬ Machine.system.EndsWith (.headless vm₁ p₁ ⟨[], false⟩) (.stopped e) o := by
  have hload₁ : VM.fresh.load (image plusesEmitted) = _ := load_fresh (by rw [image_length]; decide +kernel)
  have hload₂ : VM.fresh.load (image plusesMerged) = _ := load_fresh (by rw [image_length]; decide)
  refine ⟨_, _, _, _, _, _, _, generate_pluses, assemble_plusesEmitted, optimize_pluses ▸ assemble_plusesMerged,
    hload₁, hload₂, plusesMerged_stops hload₂ _, ?_⟩
  obtain ⟨xs, ys, zs, h⟩ := stages (balanced_of_generate generate_pluses)
  have hassembly : assembly xs = assembly plusesEmitted := Except.ok.inj (h.generated.symm.trans generate_pluses)
  have himage : image xs = image plusesEmitted := by
    have := h.assembles
    rw [hassembly, assemble_plusesEmitted] at this
    exact (Except.ok.inj this).symm
  rw [← himage] at hload₁ ⊢
  obtain ⟨s, -, -, -, -, -, hnever⟩ := h.direct hload₁ ⟨[], false⟩
  exact hnever

/-! ### The compiled source -/

/-- **Compilation is correct** in every run of the image that comes to no literal of two
bytes, and takes no jump that such literals have displaced, as long as each command that
uses a cell finds the pointer among the first 254: the image prints what the source prints,
halts when it ends, and never throws. -/
theorem compiled_correct (source : Str) (bytes : List Opcode) (hcompile : compile source = .ok bytes) (vm : VM)
    (p : Process) (hload : VM.fresh.load bytes = .ok (p, vm)) (cin : Stdin)
    (hin : ∀ r, (Reference.system source).Reaches (.start cin) r → r.UsesInRange source) :
    ∃ code zs, generate source = .ok code ∧ applyLoopOptimizations (applyOptimizations code) = assembly zs ∧
      bytes = image zs ∧
      (OnCourse zs (.headless vm p cin) →
        System.SameBehaviour (Reference.system source) (.start cin) Machine.system (.headless vm p cin) ∧
        ((∃ o, Machine.system.EndsWith (.headless vm p cin) .halted o) ↔
          ∃ e o, (Reference.system source).EndsWith (.start cin) e o) ∧
        ∀ m, Machine.system.Reaches (.headless vm p cin) m → ∀ e, m.next ≠ .error (.stopped e)) ∧
      (MeetsWide zs (.headless vm p cin) →
        ∃ m, Machine.system.Reaches (.headless vm p cin) m ∧ ∃ e, m.next = .error (.stopped e)) ∧
      (narrowText (assembly zs) = true → OnCourse zs (.headless vm p cin)) := by
  obtain ⟨xs, ys, zs, h, hfits, rfl⟩ := compiled_stages hcompile
  refine ⟨assembly xs, zs, h.generated, by rw [h.optimized, h.replaced], rfl, fun hcourse => ?_, fun hwide => ?_,
    fun htext => (h.narrow hfits htext).onCourse⟩
  · obtain ⟨t, -, ht, hmem, rfl, hcout, hfaithful, hmachine⟩ := hcourse.runs .fresh hload
    have hsame := (h.same_source (s := t.goto xs) rfl hmem hcout hin).trans
      ((h.same_items (s := t.goto xs) rfl ht rfl rfl rfl hfaithful).trans hmachine)
    refine ⟨hsame, ⟨fun ⟨o, ho⟩ => ⟨_, o, (hsame.2 _ o).mpr ho⟩, fun ⟨e, o, ho⟩ => ⟨o, (hsame.2 _ o).mp ?_⟩⟩,
      fun m hm e he => ?_⟩
    · obtain ⟨r, ⟨-, hnext⟩, -⟩ := id ho
      obtain ⟨rfl, -⟩ := Reference.next_error h.balanced hnext
      exact ho
    · exact Code.never_stops ((hmachine.2 _ _).mpr ⟨m, ⟨hm, he⟩, rfl⟩)
  · obtain ⟨e, o, m, ⟨hm, he⟩, -⟩ := hwide.stops
    exact ⟨m, hm, e, he⟩

/-- A source that never moves the pointer. -/
theorem Reference.ptr_stays {source : Str} (hright : '>' ∉ source) (hleft : '<' ∉ source) {r r' : Reference}
    (h : (Reference.system source).Reaches r r') : r'.ptr = r.ptr := by
  refine h.invariant (I := fun u => u.ptr = r.ptr) (fun u v hu hnext => ?_) rfl
  rw [← hu]
  have hjump : ∀ {pos : Option Nat}, u.jump pos = .ok v → v.ptr = u.ptr := by
    intro pos hpos
    unfold Reference.jump at hpos
    split at hpos <;> cases hpos
    rfl
  replace hnext : Reference.next source u = .ok v := hnext
  unfold Reference.next at hnext
  split at hnext
  · cases hnext
  next hpos => exact absurd (List.mem_of_getElem? hpos) hright
  next hpos => exact absurd (List.mem_of_getElem? hpos) hleft
  · cases hnext; rfl
  · cases hnext; rfl
  · cases hnext; rfl
  · cases hnext; rfl
  · split at hnext
    · exact hjump hnext
    · cases hnext; rfl
  · split at hnext
    · cases hnext; rfl
    · exact hjump hnext
  · cases hnext; rfl

theorem compiled_correct_printsTwo : System.SameBehaviour (Reference.system "++.".toList) (.start ⟨[], false⟩)
    Machine.system
    (.headless (freshVM (image printsTwoMerged)) (freshProcess (image printsTwoMerged)) ⟨[], false⟩) := by
  have hcompile : compile "++.".toList = .ok (image printsTwoMerged) :=
    compile_eq_ok generate_printsTwo (optimize_printsTwo ▸ assemble_printsTwoMerged)
  have hin : ∀ r, (Reference.system "++.".toList).Reaches (.start ⟨[], false⟩) r → r.UsesInRange "++.".toList := by
    intro r hr _ _ _
    have hptr : r.ptr = 0 := Reference.ptr_stays (by decide) (by decide) hr
    unfold Reference.InRange
    omega
  obtain ⟨code, zs, hcode, hzs, -, hright, -, hcourse⟩ := compiled_correct _ _ hcompile _ _
    (load_fresh (by rw [image_length]; decide)) ⟨[], false⟩ hin
  cases hcode.symm.trans generate_printsTwo
  refine (hright (hcourse ?_)).1
  rw [← hzs, optimize_printsTwo]
  decide +kernel

/-- 256 times `+`: the source ends, and the image throws. -/
theorem compiled_throws : ∃ bytes vm p, compile pluses = .ok bytes ∧ VM.fresh.load bytes = .ok (p, vm) ∧
    (∀ r, (Reference.system pluses).Reaches (.start ⟨[], false⟩) r → 0 ≤ r.ptr ∧ r.ptr < 30000) ∧
    ∃ e o, Machine.system.EndsWith (.headless vm p ⟨[], false⟩) (.stopped e) o := by
  have hcompile : compile pluses = .ok (image plusesMerged) :=
    compile_eq_ok generate_pluses (optimize_pluses ▸ assemble_plusesMerged)
  have hload : VM.fresh.load (image plusesMerged) = _ := load_fresh (by rw [image_length]; decide)
  refine ⟨_, _, _, hcompile, hload, fun r hr => ?_, plusesMerged_stops hload _⟩
  have hptr : r.ptr = 0 := Reference.ptr_stays (fun h => absurd (List.eq_of_mem_replicate h) (by decide))
    (fun h => absurd (List.eq_of_mem_replicate h) (by decide)) hr
  omega

end CustomIsaVm.Brainfvck
