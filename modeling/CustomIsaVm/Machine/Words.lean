import CustomIsaVm.Machine.Stack

/-! A word taken through the stack.

`SPUSH` of a memory operand pushes two bytes and `SPOP` into one takes two, but in
between both go through a reference to one cell: the byte at the source comes to the
destination, under a zero byte, and the cells next to them play no part. `Balanced` is
the traffic that may lie in between; `word_survives_iff` says when the word at the
source is the word at the destination all the same. -/
namespace CustomIsaVm

open Effect Exec

/-- The bytes from SP to the top of the segment. -/
def stackBytes (m : Machine) : List MemCell :=
  window m.ram m.proc.sp.toNat (m.proc.top - m.proc.sp.toNat)

/-- SP anywhere in its window. -/
theorem stacked_window {m : Machine} {size : Nat} (hl : Loaded size m.proc)
    (hlow : m.proc.stackLimit.toNat ≤ m.proc.sp.toNat) (hhigh : m.proc.sp.toNat ≤ m.proc.top) :
    Stacked m (stackBytes m) := by
  have hcap : VMconf.programStackSizeBytes = 1000 := rfl
  have hlimit := hl.stackLimit
  have htop := hl.top
  have hlen : (stackBytes m).length = m.proc.top - m.proc.sp.toNat := length_window _ _ _
  exact ⟨⟨size, hl⟩, by omega, by omega, holds_window _ _ _⟩

theorem Stacked.eq_stackBytes {m : Machine} {s : List MemCell} (h : Stacked m s) : s = stackBytes m := by
  have hheight := h.height
  refine List.ext_getElem ?_ fun k hk hk' => ?_
  · rw [stackBytes, length_window]
    omega
  · exact (holds_iff.mp h.bytes k hk).symm.trans (holds_iff.mp (holds_window _ _ _) k hk')

/-- Stack traffic after which SP is where it was, and never was above that. -/
structure Balanced (m m' : Machine) (ops : List (Lifo.Op MemCell)) : Prop where
  run : StackRun m ops m'
  above : Lifo.Above VMconf.programStackSizeBytes (stackBytes m).length (stackBytes m) ops
  back : m'.proc.sp = m.proc.sp

/-- The stack is what it was. -/
theorem Balanced.stacked {m m' : Machine} {ops : List (Lifo.Op MemCell)} {s : List MemCell}
    (hb : Balanced m m' ops) (h : Stacked m s) : Stacked m' s := by
  obtain ⟨t, hexec, ht⟩ := stackRun_stacked hb.run h
  have habove := hb.above
  rw [← h.eq_stackBytes] at habove
  have hlen : t.length = s.length := by
    have hm := h.height
    have hm' := ht.height
    have htop := hb.run.layout.top
    rw [hb.back] at hm'
    omega
  rwa [Lifo.matched hexec habove hlen] at ht

/-- A memory operand and the first of the two cells it denotes, neither of them used by
the stack. -/
structure WordAt (m : Machine) (arg : RawArgument) (p : Nat) : Prop where
  kind : arg.type.isMemory = true
  cell : cellOf m arg = some (.ram p)
  inRam : p + 1 < ramSize
  outside : (Cell.ram p).Outside m.proc
  outside' : (Cell.ram (p + 1)).Outside m.proc

theorem WordAt.dataCell {m : Machine} {arg : RawArgument} {p : Nat} (h : WordAt m arg p) :
    dataCell m arg = some (.ram p) := by
  rw [Exec.dataCell, h.cell]
  exact Option.filter_some_pos (by simpa using ⟨Nat.lt_of_succ_lt h.inRam, h.outside⟩)

theorem WordAt.width {m : Machine} {arg : RawArgument} {p : Nat} (h : WordAt m arg p) :
    stackWidth arg.type = 2 := by
  rw [stackWidth, h.kind]
  rfl

theorem Exec.Cell.Outside.congr {p q : Process} {c : Cell} (h : c.Outside q) (hlayout : p.SameLayout q) :
    c.Outside p := by
  cases c with
  | register r => trivial
  | ram i =>
    rintro ⟨hlow, hhigh⟩
    exact h ⟨by rw [hlayout.stackLimit]; exact hlow, by rw [hlayout.top]; exact hhigh⟩

theorem word_inj (high : MemCell) {low low' : MemCell} : word high low = word high low' ↔ low = low' :=
  ⟨fun h => by rw [← word_toUInt8 high low, h, word_toUInt8], fun h => by rw [h]⟩

/-- The turn at `m'` copies the word that was at `p` in `m` to `q`, and SP is what it was
in `m`. -/
def MovesWord (m : Machine) (p : Nat) (m' : Machine) (q : Nat) : Prop :=
  ∃ n, m'.next = .ok n ∧ n.proc.sp = m.proc.sp ∧
    word (n.ram q) (n.ram (q + 1)) = word (m.ram p) (m.ram (p + 1))

/-- From behind an `SPUSH`, over balanced traffic that leaves the words at `p` and `q` as
they are, to `SPOP y`. -/
structure Passage (m₁ m₂ : Machine) (y : RawArgument) (p q : Nat) : Prop where
  traffic : ∃ ops, Balanced m₁ m₂ ops
  kept : ∀ i, i = p ∨ i = p + 1 ∨ i = q ∨ i = q + 1 → m₂.ram i = m₁.ram i
  goesOn : m₂.goesOn = true
  pop : current m₂ = .spop y
  target : WordAt (fetched m₂) y q

section
variable {m : Machine} {s : List MemCell} {x : RawArgument} {p : Nat}

/-- `SPUSH` of a memory operand: the byte at its cell is on the stack, under a zero. -/
theorem spush_word (h : Stacked m s) (hroom : 2 + s.length ≤ VMconf.programStackSizeBytes)
    (hgo : m.goesOn = true) (hi : current m = .spush x) (hx : WordAt (fetched m) x p) :
    ∃ m₁, m.next = .ok m₁ ∧ Stacked m₁ ([0, m.ram p] ++ s) ∧
      ∀ i, (Cell.ram i).Outside m.proc → m₁.ram i = m.ram i := by
  have hpushed : pushedBytes (fetched m) x = some [0, m.ram p] := by
    have hne : x.type ≠ .number := fun heq => by
      have hkind := hx.kind
      rw [heq] at hkind
      cases hkind
    rw [pushedBytes, if_neg hne, hx.dataCell, Option.map_some, if_pos hx.kind]
    rfl
  have hop : stackOp (fetched m) (current m) = some (.push [0, m.ram p]) := by
    rw [hi, stackOp, hpushed]
    rfl
  have hstep := stack_step h hgo hop
  have happly : Lifo.apply VMconf.programStackSizeBytes s (.push [0, m.ram p]) = .ok ([0, m.ram p] ++ s) :=
    if_pos hroom
  rw [CarriesOut, happly] at hstep
  obtain ⟨m₁, hnext, hs₁, heffect⟩ := hstep
  rw [hi] at heffect
  refine ⟨m₁, hnext, hs₁, fun i hout => heffect.2.2 i fun hin => hout ⟨?_, ?_⟩⟩
  · have hlayout := (Machine.keeps_next hnext).layout
    rw [← hlayout.stackLimit]
    exact hs₁.sp.1.trans hin.1
  · exact hin.2.trans_le h.sp.2

/-- `SPOP` into a memory operand: its cell gets the second of the bytes popped. -/
theorem spop_word {v w : MemCell} (h : Stacked m ([v, w] ++ s)) (hgo : m.goesOn = true)
    (hi : current m = .spop x) (hx : WordAt (fetched m) x p) :
    ∃ m₁, m.next = .ok m₁ ∧ Stacked m₁ s ∧ m₁.ram = Function.update m.ram p w := by
  have hop : stackOp (fetched m) (current m) = some (.pop 2) := by
    rw [hi, stackOp, hx.dataCell, Option.map_some, hx.width]
  have hstep := stack_step h hgo hop
  have happly : Lifo.apply VMconf.programStackSizeBytes ([v, w] ++ s) (.pop 2) = .ok s :=
    by simp [Lifo.apply]
  rw [CarriesOut, happly] at hstep
  obtain ⟨m₁, hnext, hs₁, heffect⟩ := hstep
  rw [hi] at heffect
  obtain ⟨-, c, u, hc, hu, -, hram⟩ := heffect
  cases hx.dataCell.symm.trans hc
  rw [hx.width] at hu
  cases hu
  exact ⟨m₁, hnext, hs₁, hram⟩

end

/-- **A word survives the stack exactly where the cells after source and destination are
already equal**: only the byte at the source is copied. -/
theorem word_survives_iff {m : Machine} {size : Nat} {x : RawArgument} {p : Nat}
    (hl : Loaded size m.proc) (hfree : m.proc.stackLimit.toNat + 2 ≤ m.proc.sp.toNat)
    (hsp : m.proc.sp.toNat ≤ m.proc.top) (hgo : m.goesOn = true) (hi : current m = .spush x)
    (hx : WordAt (fetched m) x p) :
    ∃ m₁, m.next = .ok m₁ ∧ ∀ m₂ y q, Passage m₁ m₂ y p q →
      (MovesWord m p m₂ q ↔ m.ram (q + 1) = m.ram (p + 1)) := by
  have hs := stacked_window hl (by omega) hsp
  have hroom : 2 + (stackBytes m).length ≤ VMconf.programStackSizeBytes := by
    have hcap : VMconf.programStackSizeBytes = 1000 := rfl
    have hheight := hs.height
    have hlimit := hl.stackLimit
    have htop := hl.top
    omega
  obtain ⟨m₁, hnext, hs₁, hsame⟩ := spush_word hs hroom hgo hi hx
  refine ⟨m₁, hnext, fun m₂ y q hpass => ?_⟩
  obtain ⟨ops, hbalanced⟩ := hpass.traffic
  have hs₂ := hbalanced.stacked hs₁
  obtain ⟨n, hn, hsn, hram⟩ := spop_word hs₂ hpass.goesOn hpass.pop hpass.target
  have hlayout := ((Machine.keeps_next hnext).layout.trans hbalanced.run.layout)
  have hback : n.proc.sp = m.proc.sp := by
    have htop := (hlayout.trans (Machine.keeps_next hn).layout).top
    have hm := hs.height
    have hm' := hsn.height
    exact UInt16.toNat_inj.mp (by omega)
  have hfirst : n.ram q = m.ram p := by rw [hram, Function.update_self]
  have hsecond : n.ram (q + 1) = m.ram (q + 1) := by
    have hout : (Cell.ram (q + 1)).Outside m.proc :=
      hpass.target.outside'.congr (hlayout.trans (fetched_layout m₂))
    rw [hram, Function.update_of_ne (Nat.succ_ne_self q), hpass.kept _ (.inr (.inr (.inr rfl))),
      hsame _ hout]
  rw [← hsecond, ← word_inj (m.ram p)]
  constructor
  · rintro ⟨n', hn', -, hword⟩
    cases hn.symm.trans hn'
    rwa [hfirst] at hword
  · exact fun hword => ⟨n, hn, hback, by rwa [hfirst]⟩

/-- `SPUSH [2]` and `SPOP [100]`: the bytes at 2 are the first instruction's own. -/
def wordProgram : List MemCell := [0, 2, 0x81, 4, 0, 2, 0x91, 4, 0, 100, 0xFF]

def wordMachine : Machine := .headless (freshVM wordProgram) (freshProcess wordProgram) ⟨[], false⟩

theorem wordMachine_loaded : Loaded 11 wordMachine.proc :=
  (Session.fresh.load_loaded (load_fresh (by decide : wordProgram.length + 2000 ≤ guiFlag))).1

theorem wordMachine_source : WordAt (fetched wordMachine) ⟨.indirectMem, 2⟩ 2 :=
  ⟨rfl, rfl, by decide, by decide, by decide⟩

theorem wordMachine_passage :
    Passage wordMachine.nextOr wordMachine.nextOr ⟨.indirectMem, 100⟩ 2 100 where
  traffic := ⟨[], .start _, Nat.le_refl _, rfl⟩
  kept _ _ := rfl
  goesOn := by decide
  pop := by decide
  target := ⟨rfl, rfl, by decide, by decide, by decide⟩

theorem word_survives_iff_program : ∃ m₁, wordMachine.next = .ok m₁ ∧ ∀ m₂ y q, Passage m₁ m₂ y 2 q →
    (MovesWord wordMachine 2 m₂ q ↔ wordMachine.ram (q + 1) = wordMachine.ram (2 + 1)) :=
  word_survives_iff wordMachine_loaded (by decide) (by decide) (by decide) (by decide) wordMachine_source

/-- The word 0x8104 is pushed, and 0x8100 arrives. -/
theorem word_lost : Loaded 11 wordMachine.proc ∧ current wordMachine = .spush ⟨.indirectMem, 2⟩ ∧
    WordAt (fetched wordMachine) ⟨.indirectMem, 2⟩ 2 ∧ wordMachine.next = .ok wordMachine.nextOr ∧
    Passage wordMachine.nextOr wordMachine.nextOr ⟨.indirectMem, 100⟩ 2 100 ∧
    ¬ MovesWord wordMachine 2 wordMachine.nextOr 100 := by
  refine ⟨wordMachine_loaded, by decide, wordMachine_source, rfl, wordMachine_passage, ?_⟩
  rintro ⟨n, hn, -, hword⟩
  have hn' : wordMachine.nextOr.next = .ok wordMachine.nextOr.nextOr := rfl
  cases hn'.symm.trans hn
  exact absurd hword (by decide)

end CustomIsaVm
