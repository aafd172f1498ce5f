import CustomIsaVm.Machine.Exec

/-! Programs as the compiler means them.

An `Item` is what the compiler emits for one command: an instruction, or the label,
the comparison and the jump of a bracket, which stay together in every pass. `Code`
runs a list of items on the registers, the 256 cells that a pointer of one byte can
name, and the streams. A jump goes to the item of the other bracket. Literals of
any size are taken modulo 256 here; `Item.wide` are those that the machine does not
take at all. -/
namespace CustomIsaVm.Brainfvck
open Text

@[simp] theorem ofInt_zero : UInt8.ofInt 0 = 0 := rfl

/-! ### Items -/

/-- What an instruction can write: a register, or the cell the pointer is at. -/
inductive Place where
  | a
  | b
  | c
  | cell
  deriving DecidableEq, Repr

inductive Source where
  | place (p : Place)
  | num (v : Int)
  deriving DecidableEq, Repr

inductive Operation where
  | mov
  | add
  | sub
  | mul
  deriving DecidableEq, Repr

inductive Item where
  | op (o : Operation) (d : Place) (s : Source)
  | print
  | input
  | halt
  | loopStart (id : Nat)
  | loopEnd (id : Nat)
  deriving DecidableEq, Repr

namespace Item

def isBracket : Item → Bool
  | loopStart _ | loopEnd _ => true
  | _ => false

/-- The other bracket. -/
def partner : Item → Item
  | loopStart id => loopEnd id
  | loopEnd id => loopStart id
  | i => i

/-- An arithmetic instruction with a literal above 255: the machine has no operand
value for it. -/
def wide : Item → Bool
  | op .add _ (.num v) | op .sub _ (.num v) | op .mul _ (.num v) => decide (255 < v)
  | _ => false

/-- `v` is added to a place: what a run of equal commands comes to. -/
def bump (d : Place) (v : Int) : Item := if 0 < v then op .add d (.num v) else op .sub d (.num (-v))

@[simp] theorem isBracket_bump (d : Place) (v : Int) : (bump d v).isBracket = false := by
  unfold bump
  split <;> rfl

end Item

/-! ### The machine -/

/-- Registers, memory, streams, and the items still to come. -/
structure Code where
  a : MemCell
  b : MemCell
  c : MemCell
  mem : MemCell → MemCell
  cin : Stdin
  cout : List MemCell
  rest : List Item

namespace Code

def get (s : Code) : Place → MemCell
  | .a => s.a
  | .b => s.b
  | .c => s.c
  | .cell => s.mem s.a

def set (s : Code) (v : MemCell) : Place → Code
  | .a => {s with a := v}
  | .b => {s with b := v}
  | .c => {s with c := v}
  | .cell => {s with mem := Function.update s.mem s.a v}

/-- On to other code. -/
def goto (s : Code) (rest : List Item) : Code := {s with rest := rest}

def print (s : Code) : Code := {s with cout := s.cout ++ [s.get .cell]}

def input (s : Code) : Code :=
  {s.set (UInt8.ofInt s.cin.extract.1) .cell with cin := s.cin.extract.2}

def value (s : Code) : Source → MemCell
  | .place p => s.get p
  | .num v => UInt8.ofInt v

end Code

def Operation.apply : Operation → MemCell → MemCell → MemCell
  | mov, _, y => y
  | add, x, y => x + y
  | sub, x, y => x - y
  | mul, x, y => x * y

/-- The items from the first `x` on. -/
def seek (x : Item) (prog : List Item) : List Item := prog.dropWhile (· ≠ x)

namespace Code

def next (prog : List Item) (s : Code) : Except Ending Code :=
  match s.rest with
  | [] => .error .unhalted
  | .op o d src :: rest => .ok ((s.set (o.apply (s.get d) (s.value src)) d).goto rest)
  | .print :: rest => .ok (s.print.goto rest)
  | .input :: rest => .ok (s.input.goto rest)
  | .halt :: _ => .error .halted
  | .loopStart id :: rest => .ok (s.goto (if s.get .cell = 0 then seek (.loopEnd id) prog else rest))
  | .loopEnd id :: rest => .ok (s.goto (if s.get .cell = 0 then rest else seek (.loopStart id) prog))

/-! ### Updates -/

section Updates
variable (s : Code) (v w : MemCell) (d : Place) (xs ys : List Item)

@[simp] theorem get_set : (s.set v d).get d = v := by cases d <;> simp [get, set]

@[simp] theorem set_set : (s.set v d).set w d = s.set w d := by cases d <;> simp [set]

@[simp] theorem set_get : s.set (s.get d) d = s := by cases d <;> simp [get, set]

@[simp] theorem set_rest : (s.set v d).rest = s.rest := by cases d <;> rfl

@[simp] theorem set_cout : (s.set v d).cout = s.cout := by cases d <;> rfl

@[simp] theorem set_cin : (s.set v d).cin = s.cin := by cases d <;> rfl

@[simp] theorem goto_rest : (s.goto xs).rest = xs := rfl

@[simp] theorem goto_goto : (s.goto xs).goto ys = s.goto ys := rfl

@[simp] theorem goto_self : s.goto s.rest = s := rfl

@[simp] theorem get_goto : (s.goto xs).get d = s.get d := by cases d <;> rfl

@[simp] theorem set_goto : (s.goto xs).set v d = (s.set v d).goto xs := by cases d <;> rfl

@[simp] theorem goto_a : (s.goto xs).a = s.a := rfl

@[simp] theorem goto_mem : (s.goto xs).mem = s.mem := rfl

@[simp] theorem goto_cin : (s.goto xs).cin = s.cin := rfl

@[simp] theorem goto_cout : (s.goto xs).cout = s.cout := rfl

end Updates

theorem next_cout {prog : List Item} {s t : Code} (h : next prog s = .ok t) : s.cout <+: t.cout := by
  unfold next at h
  split at h <;> cases h <;> simp [print, input]

def system (prog : List Item) : System Code Ending MemCell where
  next := next prog
  output s := s.cout
  output_next h := next_cout h

/-! ### One item -/

section Items
variable {p : List Item} {s : Code} {rest : List Item}

theorem next_op {o : Operation} {d : Place} {src : Source} (h : s.rest = .op o d src :: rest) :
    (system p).next s = .ok ((s.set (o.apply (s.get d) (s.value src)) d).goto rest) := by
  simp only [system, next, h]

theorem next_print (h : s.rest = .print :: rest) : (system p).next s = .ok (s.print.goto rest) := by
  simp only [system, next, h]

theorem next_input (h : s.rest = .input :: rest) : (system p).next s = .ok (s.input.goto rest) := by
  simp only [system, next, h]

theorem next_halt (h : s.rest = .halt :: rest) : (system p).next s = .error .halted := by
  simp only [system, next, h]

theorem next_nil (h : s.rest = []) : (system p).next s = .error .unhalted := by
  simp only [system, next, h]

theorem next_loopStart {id : Nat} (h : s.rest = .loopStart id :: rest) : (system p).next s =
    .ok (s.goto (if s.get .cell = 0 then seek (.loopEnd id) p else rest)) := by
  simp only [system, next, h]

theorem next_loopEnd {id : Nat} (h : s.rest = .loopEnd id :: rest) : (system p).next s =
    .ok (s.goto (if s.get .cell = 0 then rest else seek (.loopStart id) p)) := by
  simp only [system, next, h]

theorem next_bump {d : Place} {v : Int} (h : s.rest = Item.bump d v :: rest) :
    (system p).next s = .ok ((s.set (s.get d + UInt8.ofInt v) d).goto rest) := by
  unfold Item.bump at h
  split at h
  · exact next_op h
  · rw [next_op h]
    simp only [value, Operation.apply, UInt8.ofInt_neg, UInt8.sub_neg]

end Items

/-- A program ends at its `HALT`, or behind its last item. -/
theorem next_error {p : List Item} {s : Code} {e : Ending} (h : (system p).next s = .error e) :
    (e = .unhalted ∧ s.rest = []) ∨ e = .halted ∧ ∃ rest, s.rest = .halt :: rest := by
  simp only [system, next] at h
  split at h <;> cases h
  next hrest => exact .inl ⟨rfl, hrest⟩
  next rest hrest => exact .inr ⟨rfl, rest, hrest⟩

end Code

/-! ### Brackets -/

/-- No bracket occurs twice. -/
def UniqueBrackets (prog : List Item) : Prop := (prog.filter Item.isBracket).Nodup

theorem UniqueBrackets.tail {x : Item} {prog : List Item} (h : UniqueBrackets (x :: prog)) :
    UniqueBrackets prog := by
  unfold UniqueBrackets at h ⊢
  exact h.sublist (List.Sublist.filter _ (List.sublist_cons_self x prog))

theorem UniqueBrackets.notin_tail {x : Item} {prog : List Item} (h : UniqueBrackets (x :: prog))
    (hx : x.isBracket = true) : x ∉ prog := by
  unfold UniqueBrackets at h
  rw [List.filter_cons_of_pos hx, List.nodup_cons] at h
  exact fun hmem => h.1 (List.mem_filter.mpr ⟨hmem, hx⟩)

theorem UniqueBrackets.notin {x : Item} {before rest : List Item}
    (h : UniqueBrackets (before ++ x :: rest)) (hx : x.isBracket = true) : x ∉ before := by
  induction before with
  | nil => simp
  | cons y before ih =>
    rw [List.mem_cons, not_or]
    refine ⟨?_, ih h.tail⟩
    rintro rfl
    exact h.notin_tail hx (by simp)

theorem seek_cons_self (x : Item) (prog : List Item) : seek x (x :: prog) = x :: prog := by
  simp [seek]

theorem seek_cons_ne {x y : Item} (prog : List Item) (h : y ≠ x) : seek x (y :: prog) = seek x prog := by
  simp [seek, h]

theorem seek_append {x : Item} {before : List Item} (rest : List Item) (h : x ∉ before) :
    seek x (before ++ rest) = seek x rest := by
  induction before with
  | nil => rfl
  | cons y before ih =>
    rw [List.mem_cons, not_or] at h
    rw [List.cons_append, seek_cons_ne _ (Ne.symm h.1), ih h.2]

/-- The one place where a bracket stands. -/
theorem seek_unique {x : Item} {before rest : List Item} (h : UniqueBrackets (before ++ x :: rest))
    (hx : x.isBracket = true) : seek x (before ++ x :: rest) = x :: rest := by
  rw [seek_append _ (h.notin hx), seek_cons_self]

theorem seek_suffix (x : Item) (prog : List Item) : seek x prog <:+ prog := List.dropWhile_suffix _

end CustomIsaVm.Brainfvck
