import CustomIsaVm.Brainfvck.Running

/-! Merging runs, line by line.

`apply_optimizations` keeps every line that adds to nothing, and what it writes between
two of them does to A and to the RAM what the lines between them did: `runs_merged`.
The text is read here as it stands (`sumOf`), with literals of any size taken modulo
256; `At.next_sum` is that the machine does the same where they have one byte. -/
namespace CustomIsaVm.Brainfvck
open Text Fold Effect Exec

/-! ### Lines that add -/

/-- What `ADD x, n` or `SUB x, n` adds, x being A or the cell it points to. -/
def sumOf (line : Str) : Option (Place × Int) :=
  match parseInstrArg line "ADD A, ".toList with
  | some n => some (.a, n)
  | none => match parseInstrArg line "SUB A, ".toList with
    | some n => some (.a, -n)
    | none => match parseInstrArg line "ADD [A], ".toList with
      | some n => some (.cell, n)
      | none => (parseInstrArg line "SUB [A], ".toList).map fun n => (.cell, -n)

/-- Register A and the RAM. -/
structure Store where
  a : MemCell
  ram : Nat → MemCell

/-- `v` is added modulo 256, in a process whose first sector is `first`. -/
def Store.plus (first : Nat) (s : Store) : Place → Int → Store
  | .a, v => {s with a := s.a + UInt8.ofInt v}
  | .cell, v =>
    let i := first + s.a.toNat
    {s with ram := Function.update s.ram i (s.ram i + UInt8.ofInt v)}
  | _, _ => s

/-- What a machine has of it. -/
def storeOf (m : Machine) : Store := ⟨(Place.a.on m).value m, m.ram⟩

theorem storeOf_eq (m : Machine) : storeOf m = ⟨m.registers 0, m.ram⟩ := rfl

/-- A line that adds is carried out; others are passed over. -/
def sumLine (first : Nat) (s : Store) (line : Str) : Store :=
  match sumOf line with
  | some (d, v) => s.plus first d v
  | none => s

/-- The line is no `ADD` or `SUB` on A or its cell. -/
def otherLine (line : Str) : Bool := (sumOf line).isNone

/-! ### Sums -/

theorem plus_zero (first : Nat) (s : Store) (d : Place) : s.plus first d 0 = s := by
  cases d <;> simp [Store.plus]

theorem plus_plus (first : Nat) (s : Store) (d : Place) (v w : Int) :
    (s.plus first d v).plus first d w = s.plus first d (v + w) := by
  cases d <;> simp [Store.plus, UInt8.ofInt_add, UInt8.add_assoc]

/-- A line with one of the four beginnings has none of the others. -/
theorem sumOf_line (adds : Bool) {d : Place} (hd : d = .a ∨ d = .cell) (t : Str) :
    sumOf ((if adds then (if d = .a then "ADD A, ".toList else "ADD [A], ".toList)
      else if d = .a then "SUB A, ".toList else "SUB [A], ".toList) ++ t) =
      (fromChars t).map fun n => (d, if adds then n else -n) := by
  cases adds <;> rcases hd with rfl | rfl
  all_goals
    simp only [reduceCtorEq, if_true, if_false, Bool.false_eq_true, sumOf]
    rw [parseInstrArg_append, parseInstrArg_none (by simp [List.isPrefixOf]),
      parseInstrArg_none (by simp [List.isPrefixOf]), parseInstrArg_none (by simp [List.isPrefixOf])]
  all_goals cases fromChars t <;> rfl

/-- The line of an item that adds is read as the item means it. -/
theorem sumOf_bump {d : Place} (hd : d = .a ∨ d = .cell) {v : Int} (hv : v.natAbs ≤ 2147483647) :
    ∃ line, (Item.bump d v).lines = [line] ∧ sumOf line = some (d, v) := by
  refine ⟨_, lines_bump hd v, ?_⟩
  by_cases hpos : 0 < v
  · have hadd : fromChars (decimalInt v) = some v := fromChars_fits ⟨by omega, by omega⟩
    rw [if_pos hpos]
    refine (sumOf_line true hd _).trans ?_
    rw [hadd]
    rfl
  · have hsub : fromChars (decimalInt (-v)) = some (-v) := fromChars_fits ⟨by omega, by omega⟩
    rw [if_neg hpos]
    refine (sumOf_line false hd _).trans ?_
    rw [hsub, Option.map_some]
    simp only [Bool.false_eq_true, if_false, Int.neg_neg]

/-- A run of items adds their sum, and has no other lines. -/
theorem sumLine_bumps (first : Nat) {d : Place} (hd : d = .a ∨ d = .cell) (vs : List Int)
    (hvs : weight (vs.map (Item.bump d)) ≤ 2147483647) :
    (∀ line ∈ allLines (vs.map (Item.bump d)), otherLine line = false) ∧
      ∀ s, (allLines (vs.map (Item.bump d))).foldl (sumLine first) s = s.plus first d vs.sum := by
  induction vs with
  | nil => exact ⟨by simp, fun s => (plus_zero first s d).symm⟩
  | cons v vs ih =>
    rw [List.map_cons, weight_cons, weight_bump] at hvs
    obtain ⟨hnone, hfold⟩ := ih (by omega)
    obtain ⟨line, hline, hsum⟩ := sumOf_bump hd (v := v) (by omega)
    rw [List.map_cons, allLines_cons, hline]
    refine ⟨fun l hl => ?_, fun s => ?_⟩
    · rcases List.mem_cons.mp hl with rfl | hl
      · rw [otherLine, hsum]
        rfl
      · exact hnone l hl
    · rw [List.singleton_append, List.foldl_cons, hfold, sumLine, hsum]
      exact plus_plus first s d v vs.sum

/-- **What merging does to items, it does to their lines**: a run is replaced by its sum. -/
theorem Merged.sameBetween {xs ys : List Item} (h : Merged xs ys) (hxs : weight xs ≤ 2147483647)
    (first : Nat) : SameBetween otherLine (sumLine first) (allLines xs) (allLines ys) := by
  induction h with
  | nil => exact .nil
  | keep x _ ih =>
    rw [weight_cons] at hxs
    exact (ih (by omega)).append_same x.lines
  | run d vs hd _ ih =>
    rw [weight_append] at hxs
    obtain ⟨hnone, hfold⟩ := sumLine_bumps first hd vs (by omega)
    have hmerged : (∀ line ∈ allLines (merged d vs.sum), otherLine line = false) ∧
        ∀ s, (allLines (merged d vs.sum)).foldl (sumLine first) s = s.plus first d vs.sum := by
      have hsum := weight_bumps d vs
      unfold merged
      split
      next hzero =>
        rw [hzero]
        exact ⟨by simp, fun s => (plus_zero first s d).symm⟩
      next =>
        have := sumLine_bumps first hd [vs.sum] (by simp; omega)
        simpa using this
    rw [allLines_append, allLines_append]
    exact (ih (by omega)).append hnone hmerged.1 fun s => (hmerged.2 s).trans (hfold s).symm

/-! ### On the machine -/

/-- Off the tape the RAM stays, on it the RAM is what the state says. -/
theorem OnTape.ram_eq {m m' : Machine} {s' : Code} (h : OnTape m m') (hs' : Shows s' m') {ram : Nat → MemCell}
    (hoff : ∀ i, ¬ Tape m.proc i → ram i = m.ram i)
    (hin : ∀ x : MemCell, ram (m.proc.firstSector.toNat + x.toNat) = s'.mem x) : m'.ram = ram := by
  funext i
  by_cases hi : Tape m.proc i
  · obtain ⟨hlow, hhigh⟩ := hi
    have hcell : i = m.proc.firstSector.toNat + (UInt8.ofNat (i - m.proc.firstSector.toNat)).toNat := by
      rw [UInt8.toNat_ofNat']
      omega
    rw [hcell, hin, ← hs'.mem, h.firstSector]
  · rw [h.ram i hi, hoff i hi]

/-- **The code of a line that adds does what is read from the line**, where its literal has
one byte. -/
theorem At.next_sum {prog : List Item} {s : Code} {m : Machine} {d : Place} {v : Int} {rest : List Item}
    (h : At prog s 0 m) (hrest : s.rest = .bump d v :: rest) (hd : d = .a ∨ d = .cell)
    (hv : v.natAbs ≤ 255) : ∃ s' m', m.next = .ok m' ∧ s'.rest = rest ∧ At prog s' 0 m' ∧
      storeOf m' = (storeOf m).plus m.proc.firstSector.toNat d v := by
  have hbyte : (Item.bump d v).Byte := by
    unfold Item.bump
    split
    · show v ≤ 255
      omega
    · show -v ≤ 255
      omega
  have hhalt : Item.bump d v ≠ .halt := by
    unfold Item.bump
    split <;> (intro heq; cases heq)
  obtain ⟨s', m', hs', hrest', hm', hon, hat⟩ := h.next_plain hrest (Item.isBracket_bump d v) hhalt hbyte
  rw [Code.next_bump hrest] at hs'
  cases hs'
  refine ⟨_, m', hm', rfl, hat, ?_⟩
  have hcell : ∀ x y : MemCell, m.proc.firstSector.toNat + x.toNat = m.proc.firstSector.toNat + y.toNat ↔
      x = y := by
    intro x y
    rw [Nat.add_left_cancel_iff, UInt8.toNat_inj]
  rw [storeOf_eq, storeOf_eq]
  rcases hd with rfl | rfl
  · have hram : m'.ram = m.ram := hon.ram_eq hat.shows (fun _ _ => rfl) fun x => h.shows.mem x
    rw [hat.shows.a, hram]
    show (⟨s.a + UInt8.ofInt v, m.ram⟩ : Store) = ⟨m.registers 0 + UInt8.ofInt v, m.ram⟩
    rw [h.shows.a]
  · have hram : m'.ram = Function.update m.ram (m.proc.firstSector.toNat + (m.registers 0).toNat)
        (m.ram (m.proc.firstSector.toNat + (m.registers 0).toNat) + UInt8.ofInt v) := by
      refine hon.ram_eq hat.shows (fun i hi => Function.update_of_ne ?_ _ _) fun x => ?_
      · rintro rfl
        have := (m.registers 0).toNat_lt
        exact hi ⟨by omega, by omega⟩
      · show _ = Function.update s.mem s.a (s.mem s.a + UInt8.ofInt v) x
        rw [Function.update_apply, Function.update_apply, h.shows.a, h.shows.mem, h.shows.mem]
        simp only [hcell]
    rw [hat.shows.a, hram]
    show (⟨s.a, _⟩ : Store) = ⟨m.registers 0, _⟩
    rw [h.shows.a]

/-! ### Generated text -/

/-- One is added on a line of its own. -/
theorem weight_le_lines {xs : List Item} (h : ∀ x ∈ xs, Emitted Unit x) :
    weight xs ≤ (allLines xs).length := by
  induction xs with
  | nil => exact Nat.le_refl 0
  | cons x xs ih =>
    have hx : x.weight ≤ x.lines.length :=
      (h x (List.mem_cons_self ..)).weight_le_one.trans (List.length_pos_iff.mpr (lines_ne_nil x))
    have htail := ih fun y hy => h y (List.mem_cons_of_mem x hy)
    rw [weight_cons, allLines_cons, List.length_append]
    omega

/-- The text of units, with its runs merged. -/
theorem sameBetween_assembly {xs : List Item} (h : ∀ x ∈ xs, Emitted Unit x)
    (hlength : (getlines (assembly xs)).length < 2 ^ 31) (first : Nat) :
    SameBetween otherLine (sumLine first) (getlines (assembly xs))
      (getlines (applyOptimizations (assembly xs))) := by
  obtain ⟨ys, hys, hmerged⟩ := applyOptimizations_merged h
  have hweight := weight_le_lines h
  rw [getlines_assembly, List.length_append] at hlength
  rw [hys, getlines_assembly, getlines_assembly]
  exact (hmerged.sameBetween (by omega) first).append_same preamble

/-- **Merging runs preserves meaning.** In all text that code generation builds, the lines
that do not add stay, in order, and between two of them A and the RAM come to the same
from every state; a line copied when nothing is left to add leaves the flags as they
are. -/
theorem runs_merged (source : Str) (s : Codegen)
    (hsource : (getlines source).flatten.foldlM translate .start = .ok s) :
    (∀ text, text = s.codeTmp ∨ text = (s.emit "HALT\n".toList).codeTmp → (getlines text).length < 2 ^ 31 →
      ∀ first, SameBetween otherLine (sumLine first) (getlines text) (getlines (applyOptimizations text))) ∧
    ∀ (t : Merging) (line : Str), t.accumulatedValue = 0 →
      (t.copy line).accumulatingMath = t.accumulatingMath ∧
        (t.copy line).accumulatingPtr = t.accumulatingPtr := by
  constructor
  · intro text htext hlength first
    obtain ⟨items, rfl, hitems⟩ := translated_items hsource htext
    exact sameBetween_assembly hitems hlength first
  · intro t line hzero
    unfold Merging.copy Merging.flush
    rw [if_pos hzero]
    exact ⟨rfl, rfl⟩

/-- The run of `+-` cancels, and the moves behind it are copied. -/
theorem runs_merged_cancelled : SameBetween otherLine (sumLine 0)
    [".skip 30000".toList, "start:".toList, "MOV A, 2".toList, "ADD [A], 1".toList, "SUB [A], 1".toList,
      "ADD A, 1".toList, "SUB A, 1".toList, "PRINT [A]".toList]
    [".skip 30000".toList, "start:".toList, "MOV A, 2".toList, "ADD A, 1".toList, "SUB A, 1".toList,
      "PRINT [A]".toList] := by
  have htext : (getlines "+-><.".toList).flatten.foldlM translate .start = .ok ⟨unlines [".skip 30000".toList,
    "start:".toList, "MOV A, 2".toList, "ADD [A], 1".toList, "SUB [A], 1".toList, "ADD A, 1".toList,
    "SUB A, 1".toList, "PRINT [A]".toList], 0, []⟩ := rfl
  exact (runs_merged _ _ htext).1 _ (.inl rfl) (by decide +kernel) 0

end CustomIsaVm.Brainfvck
