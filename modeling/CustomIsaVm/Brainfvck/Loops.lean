import Mathlib.Data.List.Sort
import CustomIsaVm.Brainfvck.Basic
import CustomIsaVm.Brainfvck.Merge

/-! Replacing loops preserves behaviour.

A loop whose body only moves the pointer and adds literals, comes back to its own
cell and takes one from it, runs as often as that cell says; `LoopBody` is what
makes such a body, and `loop_reaches` what the loop comes to. `Looped` is what the
second optimisation does to a list of items. The replacement computes the same
(`mul_reaches`) as long as its literals are in range: otherwise offsets 256 apart
would be the same cell, and the machine refuses such literals. `loop_simulation`
is under that condition on the run. -/
namespace CustomIsaVm.Brainfvck
open CustomIsaVm.System

/-! ### Bodies -/

/-- One item of a body, given the pointer's offset and the entries so far. -/
def analyzeItem (s : Int × List CellMod) : Item → Option (Int × List CellMod)
  | .op .add .a (.num n) => some (s.1 + n, s.2)
  | .op .sub .a (.num n) => some (s.1 - n, s.2)
  | .op .add .cell (.num n) => some (s.1, addMod s.1 n s.2)
  | .op .sub .cell (.num n) => some (s.1, addMod s.1 (-n) s.2)
  | _ => none

/-- Each time round, the body takes one from its own cell and adds to `others`. -/
def LoopBody (body : List Item) (others : List CellMod) : Prop :=
  ∃ mods self, body.foldlM analyzeItem (0, []) = some (0, mods) ∧
    takeSelf mods = some (self, others) ∧ self.value = -1

/-- What is added to the cell `x`, the pointer standing at `base`. -/
def delta (base x : MemCell) : List CellMod → MemCell
  | [] => 0
  | m :: mods => (if base + UInt8.ofInt m.offset = x then UInt8.ofInt m.value else 0) + delta base x mods

theorem delta_perm (base x : MemCell) {mods mods' : List CellMod} (h : mods.Perm mods') :
    delta base x mods = delta base x mods' := by
  induction h with
  | nil => rfl
  | cons m _ ih => rw [delta, delta, ih]
  | swap m n mods => simp only [delta]; grind
  | trans _ _ ih ih' => rw [ih, ih']

theorem delta_addMod (base x : MemCell) (offset v : Int) (mods : List CellMod) :
    delta base x (addMod offset v mods) =
      delta base x mods + if base + UInt8.ofInt offset = x then UInt8.ofInt v else 0 := by
  induction mods with
  | nil => simp [addMod, delta]
  | cons m mods ih =>
    unfold addMod
    split
    next heq =>
      subst heq
      simp only [delta, UInt8.ofInt_add]
      grind
    next =>
      rw [delta, ih, delta]
      grind

theorem takeSelf_delta (base x : MemCell) {mods others : List CellMod} {self : CellMod}
    (h : takeSelf mods = some (self, others)) : delta base x mods =
      (if base = x then UInt8.ofInt self.value else 0) + delta base x others := by
  induction mods generalizing others with
  | nil => cases h
  | cons m mods ih =>
    unfold takeSelf at h
    split at h
    next hzero =>
      cases h
      simp [delta, hzero]
    next =>
      obtain ⟨⟨self', others'⟩, htake, heq⟩ := Option.map_eq_some_iff.mp h
      cases heq
      rw [delta, ih htake, delta]
      grind

/-! ### Offsets -/

theorem mem_addMod {m : CellMod} {offset v : Int} {mods : List CellMod}
    (h : m.offset ∈ (addMod offset v mods).map CellMod.offset) :
    m.offset = offset ∨ m.offset ∈ mods.map CellMod.offset := by
  induction mods with
  | nil => simpa [addMod] using h
  | cons n mods ih =>
    unfold addMod at h
    split at h
    next heq => simp_all
    next =>
      rw [List.map_cons, List.mem_cons] at h ⊢
      rcases h with h | h
      · exact .inr (.inl h)
      · exact (ih h).imp_right .inr

/-- There is one entry for an offset. -/
theorem addMod_nodup {offset v : Int} {mods : List CellMod} (h : (mods.map CellMod.offset).Nodup) :
    ((addMod offset v mods).map CellMod.offset).Nodup := by
  induction mods with
  | nil => simp [addMod]
  | cons n mods ih =>
    rw [List.map_cons, List.nodup_cons] at h
    unfold addMod
    split
    next heq =>
      rw [List.map_cons, List.nodup_cons]
      exact ⟨by rw [← heq]; exact h.1, h.2⟩
    next hne =>
      rw [List.map_cons, List.nodup_cons]
      refine ⟨fun hmem => ?_, ih h.2⟩
      rcases mem_addMod hmem with heq | hmem
      · exact hne heq
      · exact h.1 hmem

theorem analyze_nodup {body : List Item} {s s' : Int × List CellMod}
    (h : body.foldlM analyzeItem s = some s') (hs : (s.2.map CellMod.offset).Nodup) :
    (s'.2.map CellMod.offset).Nodup := by
  induction body generalizing s with
  | nil =>
    cases h
    exact hs
  | cons x body ih =>
    rw [List.foldlM_cons] at h
    obtain ⟨u, hu, h⟩ := Option.bind_eq_some_iff.mp h
    refine ih h ?_
    unfold analyzeItem at hu
    split at hu <;> cases hu
    · exact hs
    · exact hs
    · exact addMod_nodup hs
    · exact addMod_nodup hs

theorem takeSelf_offset {mods others : List CellMod} {self : CellMod}
    (h : takeSelf mods = some (self, others)) (hnodup : (mods.map CellMod.offset).Nodup) :
    ∀ m ∈ others, m.offset ≠ 0 := by
  induction mods generalizing others with
  | nil => cases h
  | cons m mods ih =>
    rw [List.map_cons, List.nodup_cons] at hnodup
    unfold takeSelf at h
    split at h
    next hzero =>
      cases h
      intro n hn hnzero
      exact hnodup.1 (List.mem_map.mpr ⟨n, hn, by rw [hnzero, hzero]⟩)
    next hne =>
      obtain ⟨⟨self', others'⟩, htake, heq⟩ := Option.map_eq_some_iff.mp h
      cases heq
      intro n hn
      rcases List.mem_cons.mp hn with rfl | hn
      · exact hne
      · exact ih htake hnodup.2 n hn

/-- The other entries are about other cells, as far as a byte can tell. -/
def Elsewhere (others : List CellMod) : Prop := ∀ m ∈ others, UInt8.ofInt m.offset ≠ 0

theorem delta_base (base : MemCell) {others : List CellMod} (h : Elsewhere others) :
    delta base base others = 0 := by
  induction others with
  | nil => rfl
  | cons m others ih =>
    have hne : base + UInt8.ofInt m.offset ≠ base := by
      intro heq
      exact h m (List.mem_cons_self ..) (by grind)
    rw [delta, if_neg hne, ih fun n hn => h n (List.mem_cons_of_mem m hn), UInt8.zero_add]

/-! ### Running a loop -/

namespace Code

/-- `s` with the pointer moved and the entries added. -/
def moved (s : Code) (ptr : Int) (mods : List CellMod) : Code :=
  {s with a := s.a + UInt8.ofInt ptr, mem := fun x => s.mem x + delta s.a x mods}

theorem moved_zero (s : Code) : s.moved 0 [] = s := by
  simp [moved, delta]

theorem set_a_moved (s : Code) (ptr v : Int) (mods : List CellMod) :
    (s.moved ptr mods).set ((s.moved ptr mods).get .a + UInt8.ofInt v) .a = s.moved (ptr + v) mods := by
  simp [moved, set, get, UInt8.ofInt_add, UInt8.add_assoc]

theorem set_cell_moved (s : Code) (ptr v : Int) (mods : List CellMod) :
    (s.moved ptr mods).set ((s.moved ptr mods).get .cell + UInt8.ofInt v) .cell =
      s.moved ptr (addMod ptr v mods) := by
  simp only [moved, set, get, Code.mk.injEq, true_and, and_true]
  funext x
  rw [Function.update_apply, delta_addMod]
  split
  next heq =>
    subst heq
    rw [if_pos rfl, UInt8.add_assoc]
  next hne => rw [if_neg (Ne.symm hne), UInt8.add_zero]

theorem analyze_next {p : List Item} {s : Code} {m m' : Int × List CellMod} {x : Item} {r : List Item}
    (h : analyzeItem m x = some m') : (system p).next ((s.moved m.1 m.2).goto (x :: r)) =
      .ok ((s.moved m'.1 m'.2).goto r) := by
  unfold analyzeItem at h
  split at h
  · cases h
    rw [next_op rfl]
    simp only [get_goto, set_goto, goto_goto, value, Operation.apply, set_a_moved]
  · cases h
    rw [next_op rfl, Int.sub_eq_add_neg]
    simp only [get_goto, set_goto, goto_goto, value, Operation.apply, ← set_a_moved, UInt8.ofInt_neg,
      UInt8.sub_eq_add_neg]
  · cases h
    rw [next_op rfl]
    simp only [get_goto, set_goto, goto_goto, value, Operation.apply, set_cell_moved]
  · cases h
    rw [next_op rfl]
    simp only [get_goto, set_goto, goto_goto, value, Operation.apply, ← set_cell_moved, UInt8.ofInt_neg,
      UInt8.sub_eq_add_neg]
  · cases h

/-- A body does what its analysis says. -/
theorem body_reaches {p : List Item} {s : Code} {m m' : Int × List CellMod} {body r : List Item}
    (h : body.foldlM analyzeItem m = some m') :
    (system p).Reaches ((s.moved m.1 m.2).goto (body ++ r)) ((s.moved m'.1 m'.2).goto r) := by
  induction body generalizing m with
  | nil =>
    cases h
    exact .refl _
  | cons x body ih =>
    rw [List.foldlM_cons] at h
    obtain ⟨u, hu, h⟩ := Option.bind_eq_some_iff.mp h
    exact (Reaches.single (analyze_next hu)).trans (ih h)

/-- The state after a loop: its cell is spent, and the entries are added that often. -/
def afterLoop (s : Code) (others : List CellMod) : Code :=
  {s with mem := fun x => if x = s.a then 0 else s.mem x + s.mem s.a * delta s.a x others}

theorem afterLoop_spent {s : Code} (others : List CellMod) (h : s.get .cell = 0) :
    s.afterLoop others = s := by
  have hcell : s.mem s.a = 0 := h
  have hmem : (fun x => if x = s.a then 0 else s.mem x + s.mem s.a * delta s.a x others) = s.mem := by
    funext x
    split
    next heq => rw [heq, hcell]
    next => rw [hcell, UInt8.zero_mul, UInt8.add_zero]
  simp only [afterLoop, hmem]

/-- Once round the loop. -/
structure Round (s t : Code) (others : List CellMod) : Prop where
  cell : t.get .cell = s.get .cell - 1
  after : t.afterLoop others = s.afterLoop others

theorem body_round {p body r : List Item} {others : List CellMod} (s : Code)
    (h : LoopBody body others) (helse : Elsewhere others) :
    ∃ t, (system p).Reaches (s.goto (body ++ r)) (t.goto r) ∧ s.Round t others := by
  obtain ⟨mods, self, hfold, htake, hself⟩ := h
  have hrun := body_reaches (p := p) (s := s) (r := r) hfold
  rw [moved_zero] at hrun
  have hdelta : ∀ x, delta s.a x mods = (if s.a = x then -1 else 0) + delta s.a x others := fun x => by
    rw [takeSelf_delta s.a x htake, hself]
    rfl
  have hbase := delta_base s.a helse
  refine ⟨s.moved 0 mods, hrun, ?_, ?_⟩
  · simp only [moved, get, ofInt_zero, UInt8.add_zero, hdelta, if_pos, hbase]
    grind
  · simp only [moved, afterLoop, ofInt_zero, UInt8.add_zero, hdelta, Code.mk.injEq, true_and, and_true]
    funext x
    split
    · rfl
    next hne =>
      rw [if_neg (Ne.symm hne), if_pos trivial, hbase]
      grind

/-- From the end of the loop on, by induction on what its cell holds. -/
theorem loopEnd_reaches {p body r : List Item} {others : List CellMod} {id : Nat}
    (h : LoopBody body others) (helse : Elsewhere others)
    (hstart : seek (.loopStart id) p = .loopStart id :: (body ++ .loopEnd id :: r)) (s : Code) :
    (system p).Reaches (s.goto (.loopEnd id :: r)) ((s.afterLoop others).goto r) := by
  induction hn : (s.get .cell).toNat generalizing s with
  | zero =>
    have hzero : s.get .cell = 0 := UInt8.toNat_inj.mp hn
    have hstep := next_loopEnd (p := p) (s := s.goto (.loopEnd id :: r)) rfl
    rw [get_goto, if_pos hzero, goto_goto] at hstep
    rw [afterLoop_spent others hzero]
    exact .single hstep
  | succ n ih =>
    have hne : s.get .cell ≠ 0 := by
      intro hzero
      rw [hzero] at hn
      cases hn
    have hback := next_loopEnd (p := p) (s := s.goto (.loopEnd id :: r)) rfl
    rw [get_goto, if_neg hne, goto_goto, hstart] at hback
    have hagain := next_loopStart (p := p)
      (s := s.goto (.loopStart id :: (body ++ .loopEnd id :: r))) rfl
    rw [get_goto, if_neg hne, goto_goto] at hagain
    obtain ⟨t, hbody, hround⟩ := body_round (p := p) (r := .loopEnd id :: r) s h helse
    have ht : (t.get .cell).toNat = n := by
      rw [hround.cell, UInt8.toNat_sub_of_le _ _ (by rw [UInt8.le_iff_toNat_le, hn]; simp)]
      simp [hn]
    rw [← hround.after]
    exact (Reaches.single hback).trans ((Reaches.single hagain).trans (hbody.trans (ih t ht)))

/-- **A loop spends its cell and adds its entries that often.** -/
theorem loop_progress {p body r : List Item} {others : List CellMod} {id : Nat}
    (h : LoopBody body others) (helse : Elsewhere others)
    (hstart : seek (.loopStart id) p = .loopStart id :: (body ++ .loopEnd id :: r))
    (hend : seek (.loopEnd id) p = .loopEnd id :: r) (s : Code)
    (hs : s.rest = .loopStart id :: (body ++ .loopEnd id :: r)) :
    (system p).Progress s ((s.afterLoop others).goto r) := by
  have hstep := next_loopStart (p := p) hs
  by_cases hzero : s.get .cell = 0
  · rw [if_pos hzero, hend] at hstep
    exact (Progress.single hstep).trans_reaches (loopEnd_reaches h helse hstart s)
  · rw [if_neg hzero] at hstep
    obtain ⟨t, hbody, hround⟩ := body_round (p := p) (r := .loopEnd id :: r) s h helse
    rw [← hround.after]
    exact (Progress.single hstep).trans_reaches (hbody.trans (loopEnd_reaches h helse hstart t))

end Code
/-! ### The replacement -/

/-- The loop of `emit_mul_replacement`, in items. -/
def emitItems (cur : Int) : List CellMod → List Item
  | [] => merged .a (-cur)
  | m :: mods =>
    merged .a (m.offset - cur) ++
    (if m.value = 1 then [.op .add .cell (.place .b)]
    else if m.value = -1 then [.op .sub .cell (.place .b)]
    else if mods = [] then [.op .mul .b (.num m.value), .op .add .cell (.place .b)]
    else [.op .mov .c (.place .b), .op .mul .c (.num m.value), .op .add .cell (.place .c)]) ++
    emitItems m.offset mods

def byOffset (mods : List CellMod) : List CellMod := mods.mergeSort fun a b => a.offset ≤ b.offset

theorem byOffset_perm (mods : List CellMod) : (byOffset mods).Perm mods := List.mergeSort_perm mods _

theorem byOffset_sorted (mods : List CellMod) :
    (byOffset mods).Pairwise fun a b => a.offset ≤ b.offset := by
  refine (List.pairwise_mergeSort ?_ ?_ mods).imp fun h => ?_
  · intro a b c
    simp only [decide_eq_true_eq]
    omega
  · intro a b
    simp only [Bool.or_eq_true, decide_eq_true_eq]
    omega
  · simpa using h

/-- What a loop is replaced by. -/
def loopItems (others : List CellMod) : List Item :=
  if others = [] then [.op .mov .cell (.num 0)]
  else [.op .mov .b (.place .cell), .op .mov .cell (.num 0)] ++ emitItems 0 (byOffset others)

namespace Code

/-- Where the pointer starts from, what it adds, and what it leaves alone. -/
structure Added (s : Code) (base n : MemCell) (mods : List CellMod) (t : Code) : Prop where
  a : t.a = base
  mem : t.mem = fun x => s.mem x + n * delta base x mods
  cin : t.cin = s.cin
  cout : t.cout = s.cout

/-- One entry: the pointer goes to its cell, and its value is added `n` times. -/
theorem entry_reaches {p r : List Item} {base n : MemCell} {cur : Int} {m : CellMod}
    {mods : List CellMod} {s : Code} (ha : s.a = base + UInt8.ofInt cur) (hb : s.b = n)
    (hs : s.rest = merged .a (m.offset - cur) ++
      (if m.value = 1 then [.op .add .cell (.place .b)]
      else if m.value = -1 then [.op .sub .cell (.place .b)]
      else if mods = [] then [.op .mul .b (.num m.value), .op .add .cell (.place .b)]
      else [.op .mov .c (.place .b), .op .mul .c (.num m.value), .op .add .cell (.place .c)]) ++ r) :
    ∃ t, (system p).Reaches s t ∧ t.rest = r ∧ t.a = base + UInt8.ofInt m.offset ∧
      (mods ≠ [] → t.b = n) ∧ t.cin = s.cin ∧ t.cout = s.cout ∧
      t.mem = Function.update s.mem t.a (s.mem t.a + n * UInt8.ofInt m.value) := by
  rw [List.append_assoc] at hs
  have hmove := run_merged (p := p) .a (m.offset - cur) hs
  have hat : s.get .a + UInt8.ofInt (m.offset - cur) = base + UInt8.ofInt m.offset := by
    rw [get, ha, Int.sub_eq_add_neg, UInt8.ofInt_add, UInt8.ofInt_neg]
    grind
  rw [hat] at hmove
  split at hmove
  next hone =>
    refine ⟨_, hmove.trans (.single (next_op rfl)), rfl, ?_⟩
    simp [set, get, value, goto, Operation.apply, hone, hb]
  split at hmove
  next hminus =>
    refine ⟨_, hmove.trans (.single (next_op rfl)), rfl, ?_⟩
    simp [set, get, value, goto, Operation.apply, hminus, hb]
    grind
  split at hmove
  next hnil =>
    refine ⟨_, hmove.trans ((Reaches.single (next_op rfl)).trans (.single (next_op rfl))), rfl, ?_⟩
    simp [set, get, value, goto, Operation.apply, hb, hnil]
  next =>
    refine ⟨_, hmove.trans ((Reaches.single (next_op rfl)).trans
      ((Reaches.single (next_op rfl)).trans (.single (next_op rfl)))), rfl, ?_⟩
    simp [set, get, value, goto, Operation.apply, hb]

theorem emit_reaches {p r : List Item} (base n : MemCell) (mods : List CellMod) {cur : Int} {s : Code}
    (ha : s.a = base + UInt8.ofInt cur) (hb : mods ≠ [] → s.b = n)
    (hs : s.rest = emitItems cur mods ++ r) :
    ∃ t, (system p).Reaches s t ∧ t.rest = r ∧ s.Added base n mods t := by
  induction mods generalizing cur s with
  | nil =>
    refine ⟨_, run_merged (p := p) .a (-cur) hs, rfl, ?_, ?_, rfl, rfl⟩
    · simp only [set, get, goto, ha, UInt8.ofInt_neg]
      grind
    · simp [set, get, goto, delta]
  | cons m mods ih =>
    rw [emitItems, List.append_assoc] at hs
    obtain ⟨t, hreach, hrest, hta, htb, hcin, hcout, hmem⟩ :=
      entry_reaches (p := p) ha (hb (List.cons_ne_nil _ _)) hs
    obtain ⟨u, hu, hurest, hadd⟩ := ih hta htb hrest
    refine ⟨u, hreach.trans hu, hurest, hadd.a, ?_, hadd.cin.trans hcin, hadd.cout.trans hcout⟩
    rw [hadd.mem, hmem]
    funext x
    rw [Function.update_apply, delta, hta]
    split
    next heq => rw [heq, if_pos rfl]; grind
    next hne => rw [if_neg (Ne.symm hne)]; grind

/-- **A replacement computes what the loop does.** -/
theorem loopItems_progress {p r : List Item} {others : List CellMod} {s : Code}
    (hs : s.rest = loopItems others ++ r) (helse : Elsewhere others) :
    ∃ t, (system p).Progress s t ∧ t.rest = r ∧ t.Same (s.afterLoop others) := by
  unfold loopItems at hs
  split at hs
  next hnil =>
    subst hnil
    refine ⟨_, .single (next_op hs), rfl, rfl, ?_, rfl, rfl⟩
    funext x
    simp [set, goto, value, Operation.apply, afterLoop, delta, Function.update_apply]
  next =>
    rw [List.append_assoc] at hs
    have hsave := next_op (p := p) hs
    have hclear := next_op (p := p) (s := ((s.set (s.get .cell) .b).goto
      (.op .mov .cell (.num 0) :: (emitItems 0 (byOffset others) ++ r)))) rfl
    obtain ⟨t, ht, hrest, hadd⟩ := emit_reaches (p := p) s.a (s.get .cell) (byOffset others)
      (s := ((s.set (s.get .cell) .b).set 0 .cell).goto (emitItems 0 (byOffset others) ++ r))
      (by simp [set, goto]) (fun _ => rfl) rfl
    refine ⟨t, (Progress.single hsave).trans_reaches ((Reaches.single hclear).trans ht), hrest, hadd.a, ?_,
      hadd.cin, hadd.cout⟩
    rw [hadd.mem]
    funext x
    rw [delta_perm s.a x (byOffset_perm others)]
    simp only [set, goto, afterLoop, Function.update_apply]
    split
    next heq => rw [heq, delta_base s.a helse, UInt8.mul_zero, UInt8.add_zero]
    next => rfl

end Code

/-! ### Literals in range -/

/-- The next item is not an instruction that the machine refuses. -/
def Code.Narrow (s : Code) : Prop := ∀ x ∈ s.rest.head?, x.wide = false

/-- From `s` on, the run never comes to such an instruction. -/
def NeverWide (p : List Item) (s : Code) : Prop :=
  ∀ t, (Code.system p).Reaches s t → t.Narrow

theorem NeverWide.of_reaches {p : List Item} {s t : Code} (h : NeverWide p s)
    (hst : (Code.system p).Reaches s t) : NeverWide p t :=
  fun u hu => h u (hst.trans hu)

/-- All of a straight piece of code is run. -/
theorem NeverWide.straight {p out r : List Item} {s : Code} (h : NeverWide p s)
    (hs : s.rest = out ++ r) (hout : ∀ x ∈ out, ∃ o d src, x = .op o d src) :
    ∀ x ∈ out, x.wide = false := by
  induction out generalizing s with
  | nil => simp
  | cons y out ih =>
    obtain ⟨o, d, src, rfl⟩ := hout y (List.mem_cons_self ..)
    have hstep := Reaches.single (Code.next_op (p := p) hs)
    intro x hx
    rcases List.mem_cons.mp hx with rfl | hx
    · exact h s (.refl s) _ (by rw [hs]; rfl)
    · exact ih (h.of_reaches hstep) rfl (fun z hz => hout z (List.mem_cons_of_mem _ hz)) x hx

theorem bump_op (d : Place) (v : Int) : ∃ o d' src, Item.bump d v = .op o d' src := by
  unfold Item.bump
  split <;> exact ⟨_, _, _, rfl⟩

theorem merged_op {d : Place} {v : Int} {x : Item} (h : x ∈ merged d v) : ∃ o d' src, x = .op o d' src := by
  unfold merged at h
  split at h
  · cases h
  · rw [List.mem_singleton.mp h]
    exact bump_op d v

theorem emitItems_op (mods : List CellMod) {cur : Int} {x : Item} (h : x ∈ emitItems cur mods) :
    ∃ o d src, x = .op o d src := by
  induction mods generalizing cur with
  | nil => exact merged_op h
  | cons m mods ih =>
    rw [emitItems, List.append_assoc, List.mem_append, List.mem_append] at h
    rcases h with h | h | h
    · exact merged_op h
    · split at h
      · exact ⟨_, _, _, List.mem_singleton.mp h⟩
      split at h
      · exact ⟨_, _, _, List.mem_singleton.mp h⟩
      split at h
      all_goals
        simp only [List.mem_cons, List.not_mem_nil, or_false] at h
        rcases h with rfl | rfl | rfl <;> exact ⟨_, _, _, rfl⟩
    · exact ih h

theorem loopItems_op {others : List CellMod} {x : Item} (h : x ∈ loopItems others) :
    ∃ o d src, x = .op o d src := by
  unfold loopItems at h
  split at h
  · exact ⟨_, _, _, List.mem_singleton.mp h⟩
  · simp only [List.cons_append, List.nil_append, List.mem_cons] at h
    rcases h with rfl | rfl | h
    · exact ⟨_, _, _, rfl⟩
    · exact ⟨_, _, _, rfl⟩
    · exact emitItems_op _ h

theorem bump_narrow {d : Place} {v : Int} (h : (Item.bump d v).wide = false) : -255 ≤ v ∧ v ≤ 255 := by
  unfold Item.bump at h
  split at h
  all_goals
    simp only [Item.wide, decide_eq_false_iff_not] at h
    omega

theorem merged_narrow {d : Place} {v : Int} (h : ∀ x ∈ merged d v, x.wide = false) :
    -255 ≤ v ∧ v ≤ 255 := by
  unfold merged at h
  split at h
  · omega
  · exact bump_narrow (h _ (List.mem_singleton_self _))

/-- On its way back the pointer comes from the entry furthest to the right. -/
theorem emitItems_upper {mods : List CellMod} {cur : Int}
    (hsorted : mods.Pairwise fun a b => a.offset ≤ b.offset)
    (h : ∀ x ∈ emitItems cur mods, x.wide = false) : ∀ m ∈ mods, m.offset ≤ 255 := by
  induction mods generalizing cur with
  | nil => simp
  | cons m mods ih =>
    have htail : ∀ x ∈ emitItems m.offset mods, x.wide = false := fun x hx =>
      h x (by rw [emitItems]; exact List.mem_append_right _ hx)
    have hmods := ih hsorted.of_cons htail
    intro n hn
    rcases List.mem_cons.mp hn with rfl | hn
    · cases mods with
      | nil =>
        have := merged_narrow htail
        omega
      | cons m' mods =>
        have := hmods m' (List.mem_cons_self ..)
        have := (List.pairwise_cons.mp hsorted).1 m' (List.mem_cons_self ..)
        omega
    · exact hmods n hn

/-- In a replacement whose literals are in range, so are the offsets. -/
theorem loopItems_elsewhere {others : List CellMod} (hne : ∀ m ∈ others, m.offset ≠ 0)
    (h : ∀ x ∈ loopItems others, x.wide = false) : Elsewhere others := by
  intro m hm
  have hsorted := byOffset_sorted others
  have hm' := (byOffset_perm others).mem_iff.mpr hm
  unfold loopItems at h
  rw [if_neg (List.ne_nil_of_mem hm)] at h
  have hemit : ∀ x ∈ emitItems 0 (byOffset others), x.wide = false := fun x hx =>
    h x (List.mem_append_right _ hx)
  have hupper := emitItems_upper hsorted hemit m hm'
  have hlower : -255 ≤ m.offset := by
    cases hmods : byOffset others with
    | nil => rw [hmods] at hm'; cases hm'
    | cons m' mods =>
      rw [hmods] at hm' hsorted hemit
      have hfirst := (merged_narrow fun x hx => hemit x (by
        rw [emitItems, List.append_assoc]
        exact List.mem_append_left _ hx)).1
      rcases List.mem_cons.mp hm' with rfl | hm'
      · omega
      · have := (List.pairwise_cons.mp hsorted).1 m hm'
        omega
  intro hzero
  have hval := congrArg UInt8.toNat hzero
  have := hne m hm
  rw [UInt8.ofInt, UInt8.toNat_ofNat'] at hval
  simp at hval
  omega

/-! ### Replaced loops -/

/-- Some loops are replaced, and everything else stays. -/
inductive Looped : List Item → List Item → Prop
  | nil : Looped [] []
  | keep (x : Item) {xs ys : List Item} (h : Looped xs ys) : Looped (x :: xs) (x :: ys)
  | loop (id : Nat) {body xs ys : List Item} {others : List CellMod} (hbody : LoopBody body others)
      (h : Looped xs ys) :
      Looped (.loopStart id :: (body ++ .loopEnd id :: xs)) (loopItems others ++ ys)

theorem analyzeItem_bracket {x : Item} (hx : x.isBracket = true) (s : Int × List CellMod) :
    analyzeItem s x = none := by
  cases x <;> first | rfl | cases hx

theorem LoopBody.notin {body : List Item} {others : List CellMod} (h : LoopBody body others) {x : Item}
    (hx : x.isBracket = true) : x ∉ body := by
  obtain ⟨mods, self, hfold, -, -⟩ := h
  generalize ((0 : Int), ([] : List CellMod)) = s at hfold
  induction body generalizing s with
  | nil => simp
  | cons y body ih =>
    rw [List.foldlM_cons] at hfold
    obtain ⟨u, hu, hfold⟩ := Option.bind_eq_some_iff.mp hfold
    rw [List.mem_cons, not_or]
    refine ⟨?_, ih u hfold⟩
    rintro rfl
    rw [analyzeItem_bracket hx] at hu
    cases hu

theorem notin_loopItems {x : Item} (hx : x.isBracket = true) (others : List CellMod) :
    x ∉ loopItems others := by
  intro h
  obtain ⟨o, d, src, rfl⟩ := loopItems_op h
  cases hx

/-- A bracket of the new code is one of the old code. -/
theorem Looped.mem {p q : List Item} (h : Looped p q) {x : Item} (hx : x.isBracket = true) (hq : x ∈ q) :
    x ∈ p := by
  induction h with
  | nil => cases hq
  | keep y _ ih =>
    rcases List.mem_cons.mp hq with rfl | hq
    · exact List.mem_cons_self ..
    · exact List.mem_cons_of_mem y (ih hq)
  | @loop id body xs ys others hbody _ ih =>
    rcases List.mem_append.mp hq with hq | hq
    · exact absurd hq (notin_loopItems hx others)
    · simp [ih hq]

theorem UniqueBrackets.drop {a b : List Item} (h : UniqueBrackets (a ++ b)) : UniqueBrackets b := by
  unfold UniqueBrackets at h ⊢
  rw [List.filter_append] at h
  exact h.of_append_right

/-- Brackets behind a loop are not in it. -/
theorem notin_loop {id : Nat} {body xs : List Item} {others : List CellMod} {x : Item}
    (hunique : UniqueBrackets (.loopStart id :: (body ++ .loopEnd id :: xs)))
    (hbody : LoopBody body others) (hx : x.isBracket = true) (hmem : x ∈ xs) :
    x ≠ .loopStart id ∧ x ∉ body ∧ x ≠ .loopEnd id := by
  refine ⟨?_, hbody.notin hx, ?_⟩
  · rintro rfl
    exact hunique.notin_tail rfl (by simp [hmem])
  · rintro rfl
    exact hunique.tail.drop.notin_tail rfl hmem

/-- Brackets that are kept stay where they are. -/
theorem Looped.seek {p q : List Item} (h : Looped p q) (hunique : UniqueBrackets p) {x : Item}
    (hx : x.isBracket = true) (hq : x ∈ q) : Looped (seek x p) (seek x q) := by
  induction h with
  | nil => exact .nil
  | keep y h ih =>
    by_cases hyx : y = x
    · subst hyx
      rw [seek_cons_self, seek_cons_self]
      exact .keep y h
    · rw [seek_cons_ne _ hyx, seek_cons_ne _ hyx]
      exact ih hunique.tail ((List.mem_cons.mp hq).resolve_left (Ne.symm hyx))
  | @loop id body xs ys others hbody h ih =>
    have hys := (List.mem_append.mp hq).resolve_left (notin_loopItems hx others)
    obtain ⟨hstart, hinside, hend⟩ := notin_loop hunique hbody hx (h.mem hx hys)
    rw [seek_append _ (notin_loopItems hx others), seek_cons_ne _ (Ne.symm hstart), seek_append _ hinside,
      seek_cons_ne _ (Ne.symm hend)]
    exact ih hunique.tail.drop.tail hys

theorem Item.isBracket_partner {x : Item} (hx : x.isBracket = true) : x.partner.isBracket = true := by
  cases x <;> first | rfl | cases hx

theorem Item.partner_eq {x y : Item} (h : x.partner = y) : x = y.partner := by
  subst h
  cases x <;> rfl

/-- A bracket whose partner is not there to be replaced with it is kept. -/
theorem Looped.partner_of_notin {p q : List Item} (h : Looped p q) {x : Item} (hx : x.isBracket = true)
    (hnot : x ∉ p) (hp : x.partner ∈ p) : x.partner ∈ q := by
  induction h with
  | nil => cases hp
  | keep y _ ih =>
    rw [List.mem_cons, not_or] at hnot
    rcases List.mem_cons.mp hp with hp | hp
    · rw [hp]
      exact List.mem_cons_self ..
    · exact List.mem_cons_of_mem y (ih hnot.2 hp)
  | @loop id body xs ys others hbody _ ih =>
    have hinside := hbody.notin (Item.isBracket_partner hx)
    simp only [List.mem_cons, List.mem_append, not_or] at hnot hp
    obtain ⟨hstart, -, hend, hxs⟩ := hnot
    rcases hp with hp | hp | hp | hp
    · exact absurd (Item.partner_eq hp) hend
    · exact absurd hp hinside
    · exact absurd (Item.partner_eq hp) hstart
    · exact List.mem_append_right _ (ih hxs hp)

/-- A kept bracket keeps its partner. -/
theorem Looped.partner {p q : List Item} (h : Looped p q) (hunique : UniqueBrackets p) {x : Item}
    (hx : x.isBracket = true) (hq : x ∈ q) (hp : x.partner ∈ p) : x.partner ∈ q := by
  induction h with
  | nil => cases hq
  | @keep y xs ys h ih =>
    by_cases hyp : y = x.partner
    · rw [← hyp]
      exact List.mem_cons_self ..
    · have htail := (List.mem_cons.mp hp).resolve_left (Ne.symm hyp)
      refine List.mem_cons_of_mem y ?_
      rcases List.mem_cons.mp hq with rfl | hq
      · exact h.partner_of_notin hx (hunique.notin_tail hx) htail
      · exact ih hunique.tail hq htail
  | @loop id body xs ys others hbody h ih =>
    have hys := (List.mem_append.mp hq).resolve_left (notin_loopItems hx others)
    obtain ⟨hstart, -, hend⟩ := notin_loop hunique hbody hx (h.mem hx hys)
    have hinside := hbody.notin (Item.isBracket_partner hx)
    simp only [List.mem_cons, List.mem_append] at hp
    rcases hp with hp | hp | hp | hp
    · exact absurd (Item.partner_eq hp) hend
    · exact absurd hp hinside
    · exact absurd (Item.partner_eq hp) hstart
    · exact List.mem_append_right _ (ih hunique.tail.drop.tail hys hp)

/-- At the same point of a program and of its form with loops replaced, where the
latter comes to no literal out of range any more. -/
structure InLoops (p q : List Item) (s t : Code) : Prop where
  same : s.Same t
  code : Looped s.rest t.rest
  left : s.rest <:+ p
  right : t.rest <:+ q
  narrow : NeverWide q t

theorem loop_seek {p body xs : List Item} {id : Nat} (hunique : UniqueBrackets p)
    (h : .loopStart id :: (body ++ .loopEnd id :: xs) <:+ p) :
    seek (.loopStart id) p = .loopStart id :: (body ++ .loopEnd id :: xs) ∧
      seek (.loopEnd id) p = .loopEnd id :: xs := by
  obtain ⟨before, rfl⟩ := h
  refine ⟨seek_unique hunique rfl, ?_⟩
  rw [← List.cons_append, ← List.append_assoc] at hunique ⊢
  exact seek_unique hunique rfl

theorem LoopBody.offset {body : List Item} {others : List CellMod} (h : LoopBody body others) :
    ∀ m ∈ others, m.offset ≠ 0 := by
  obtain ⟨mods, self, hfold, htake, -⟩ := h
  exact takeSelf_offset htake (analyze_nodup hfold List.nodup_nil)

theorem InLoops.advance {p q : List Item} (hpq : Looped p q) (hunique : UniqueBrackets p)
    (hplain : ∀ x ∈ p, x.plain = true) (hpaired : ∀ x ∈ p, x.isBracket = true → x.partner ∈ p)
    {s t : Code} (h : InLoops p q s t) :
    (∃ e s' t', (Code.system p).Ends s e s' ∧ (Code.system q).Ends t e t' ∧ s'.cout = t'.cout) ∨
      ∃ s' t', (Code.system p).Progress s s' ∧ (Code.system q).Progress t t' ∧ InLoops p q s' t' := by
  obtain ⟨hsame, hcode, hleft, hright, hnarrow⟩ := h
  generalize hs : s.rest = xs at hcode hleft
  generalize ht : t.rest = ys at hcode hright
  cases hcode with
  | nil => exact .inl ⟨_, s, t, ⟨.refl s, Code.next_nil hs⟩, ⟨.refl t, Code.next_nil ht⟩, hsame.cout⟩
  | @keep x xs ys h =>
    have hxp : x ∈ p := hleft.subset (List.mem_cons_self ..)
    have hxq : x ∈ q := hright.subset (List.mem_cons_self ..)
    have hxs : xs <:+ p := (List.suffix_cons x xs).trans hleft
    have hys : ys <:+ q := (List.suffix_cons x ys).trans hright
    cases hx : x.isBracket with
    | true =>
      obtain ⟨s', t', hs', ht', hsame', ⟨hrs, hrt⟩ | ⟨hrs, hrt⟩⟩ :=
        Code.same_bracket (p := p) (q := q) hsame hs ht hx
      · exact .inr ⟨s', t', .single hs', .single ht', hsame', hrs ▸ hrt ▸ h, hrs ▸ hxs, hrt ▸ hys,
          hnarrow.of_reaches (.single ht')⟩
      · have hpartner := hpq.partner hunique hx hxq (hpaired x hxp hx)
        exact .inr ⟨s', t', .single hs', .single ht', hsame',
          hrs ▸ hrt ▸ hpq.seek hunique (Item.isBracket_partner hx) hpartner,
          hrs ▸ seek_suffix _ p, hrt ▸ seek_suffix _ q, hnarrow.of_reaches (.single ht')⟩
    | false =>
      rcases Code.same_next (p := p) (q := q) hsame hs ht (hplain x hxp) hx with
        ⟨e, hes, het⟩ | ⟨s', t', hs', ht', hsame', hrs, hrt⟩
      · exact .inl ⟨e, s, t, ⟨.refl s, hes⟩, ⟨.refl t, het⟩, hsame.cout⟩
      · exact .inr ⟨s', t', .single hs', .single ht', hsame', hrs ▸ hrt ▸ h, hrs ▸ hxs, hrt ▸ hys,
          hnarrow.of_reaches (.single ht')⟩
  | @loop id body xs ys others hbody h =>
    have helse : Elsewhere others :=
      loopItems_elsewhere hbody.offset (hnarrow.straight ht fun _ => loopItems_op)
    obtain ⟨hstart, hend⟩ := loop_seek hunique hleft
    have hloop := Code.loop_progress hbody helse hstart hend s hs
    obtain ⟨t', hprogress, hrest, hsame'⟩ := Code.loopItems_progress (p := q) ht helse
    have hxs : xs <:+ p := by
      refine List.IsSuffix.trans ?_ hleft
      exact ⟨.loopStart id :: (body ++ [.loopEnd id]), by simp⟩
    have hys : ys <:+ q := (List.suffix_append _ _).trans hright
    refine .inr ⟨_, t', hloop, hprogress, ?_, hrest ▸ h, hxs, hrest ▸ hys,
      hnarrow.of_reaches hprogress.reaches⟩
    have hafter : (s.afterLoop others).Same (t.afterLoop others) := by
      obtain ⟨ha, hmem, hcin, hcout⟩ := hsame
      exact ⟨ha, by simp only [Code.afterLoop, ha, hmem], hcin, hcout⟩
    exact ⟨hafter.a.trans hsame'.a.symm, hafter.mem.trans hsame'.mem.symm,
      hafter.cin.trans hsame'.cin.symm, hafter.cout.trans hsame'.cout.symm⟩

/-- **A program and its form with loops replaced behave alike**, from where the latter
comes to no literal out of range. -/
def loop_simulation {p q : List Item} (hpq : Looped p q) (hunique : UniqueBrackets p)
    (hplain : ∀ x ∈ p, x.plain = true) (hpaired : ∀ x ∈ p, x.isBracket = true → x.partner ∈ p) :
    Simulation (Code.system p) (Code.system q) where
  Rel := InLoops p q
  output h := h.same.cout
  advance h := h.advance hpq hunique hplain hpaired

end CustomIsaVm.Brainfvck
