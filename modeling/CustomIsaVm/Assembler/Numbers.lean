import CustomIsaVm.Assembler.RoundTrip

/-! Which numbers survive assembling.

A word is taken for a number by its first characters, and the number parsers read
the digits a text begins with and no further. What comes behind them is dropped
without a word, and a value that is larger than the operand is cut to its low bits
(`Slips`). Everywhere else a number is emitted as it stands in the source or
refused: `numbers_exact_iff`. -/
namespace CustomIsaVm.Assembler
open Text Fold Exec

/-! ### Numeric words -/

/-- The word is encoded as a number or as a place in memory. -/
def IsNumeric (arg : Str) : Prop :=
  operandType arg = .number ∨ operandType arg = .number16 ∨ operandType arg = .indirectMem

/-- The text the number is read from. -/
def numeral (arg : Str) : Str := if operandType arg = .indirectMem then inside arg else arg

/-- The largest number its parser takes. -/
def largest (arg : Str) : Nat := if operandType arg = .indirectMem then 2 ^ 64 - 1 else 2147483647

/-- The word is a decimal number of 16 bits, in brackets where it is a place in memory. -/
structure Complete (arg : Str) : Prop where
  decimal : IsDecimal (numeral arg)
  bound : number (numeral arg) ≤ 65535
  brackets : operandType arg = .indirectMem → arg = '[' :: inside arg ++ [']']

/-- The word is no such number, and yet its parser takes the digits it begins with. -/
def Slips (arg : Str) : Prop := number (numeral arg) ≤ largest arg ∧ ¬ Complete arg

/-- The word is such a number, and `fetch_argument` reads it back from the bytes. -/
structure Exact (arg : Str) (code : List Opcode) : Prop extends Complete arg where
  fetched : ∀ m : Machine, Holds m.ram m.proc.pc.toNat code → m.proc.pc.toNat + code.length ≤ ramSize →
    ∃ a m', fetchArgument m = .ok a m' ∧ a.type = operandType arg ∧ a.value.toNat = number (numeral arg)

/-! ### What the parsers accept -/

theorem digits_ne_nil_of_head {s : Str} (h : s.head?.any Char.isDigit = true) : digits s ≠ [] := by
  cases s with
  | nil => cases h
  | cons c t =>
    have hc : c.isDigit = true := h
    simp [digits, hc]

/-- A text that begins with a digit has no sign. -/
theorem signed_of_head {s : Str} (h : s.head?.any Char.isDigit = true) : signed s = (false, s) := by
  cases s with
  | nil => cases h
  | cons c t => exact signed_of_isDigit t h

theorem stoull_of_head {s : Str} (h : s.head?.any Char.isDigit = true) :
    stoull s = if 2 ^ 64 ≤ number s then .error .outOfRange else .ok (number s) := by
  simp only [stoull, signed_of_head h, if_neg (digits_ne_nil_of_head h), Bool.false_eq_true, if_false]

theorem stoi_of_head {s : Str} (h : s.head?.any Char.isDigit = true) :
    stoi s = if 2147483647 < number s then .error .outOfRange else .ok (number s : Int) := by
  simp only [stoi, signed_of_head h, if_neg (digits_ne_nil_of_head h), Bool.false_eq_true, if_false]
  exact if_congr (by omega) rfl rfl

theorem head_of_digits {s : Str} (h : digits s ≠ []) : s.head?.any Char.isDigit = true := by
  cases s with
  | nil => exact absurd rfl h
  | cons c t =>
    by_contra hc
    exact h (by simpa [digits] using hc)

/-- A literal begins with a digit. -/
theorem head_of_literal {arg : Str} (hminus : '-' ∉ arg)
    (h : operandType arg = .number ∨ operandType arg = .number16) : arg.head?.any Char.isDigit = true := by
  have hsign : ∀ t, arg ≠ '-' :: t := by
    rintro t rfl
    exact hminus (List.mem_cons_self ..)
  by_contra hhead
  have hdigits : digits arg = [] := by_contra fun hne => hhead (head_of_digits hne)
  have hfrom : fromChars arg = none := by rw [fromChars_of_not_minus hsign, if_pos (.inl hdigits)]
  have hdash : arg.head? ≠ some '-' := by
    cases arg with
    | nil => simp
    | cons c t =>
      rintro heq
      cases heq
      exact hsign t rfl
  unfold operandType bracketType at h
  simp only [hfrom] at h
  grind

/-- So does what stands in the brackets of a place in memory. -/
theorem head_of_indirectMem {arg : Str} (hminus : '-' ∉ arg) (h : operandType arg = .indirectMem) :
    (inside arg).head?.any Char.isDigit = true := by
  have hdash : (inside arg).head? ≠ some '-' := by
    intro heq
    obtain ⟨t, ht⟩ := List.head?_eq_some_iff.mp heq
    refine hminus (List.mem_of_mem_tail (List.mem_of_mem_dropLast ?_))
    rw [show arg.tail.dropLast = '-' :: t from ht]
    exact List.mem_cons_self ..
  unfold operandType bracketType at h
  cases hhead : (inside arg).head? with
  | none =>
    rw [hhead] at h
    grind
  | some c =>
    rw [hhead] at h hdash
    grind

/-- What becomes of a numeric word: it is emitted if its parser takes the digits, and
refused otherwise. -/
theorem operandBytes_numeric (labels : Labels) {arg : Str} (h : IsNumeric arg) (hminus : '-' ∉ arg) :
    (∃ code, operandBytes labels arg = .ok code) ↔ number (numeral arg) ≤ largest arg := by
  rcases or_assoc.mpr h with hliteral | htype
  · have hstoi := stoi_of_head (head_of_literal hminus hliteral)
    rcases hliteral with htype | htype
    all_goals
      simp only [operandBytes, payloadBytes, htype, hstoi, numeral, largest, reduceCtorEq, if_false]
      by_cases hlt : 2147483647 < number arg
      · rw [if_pos hlt]
        exact iff_of_false (fun ⟨_, hcode⟩ => by cases hcode) (by omega)
      · rw [if_neg hlt]
        exact iff_of_true ⟨_, rfl⟩ (by omega)
  · have hstoull := stoull_of_head (head_of_indirectMem hminus htype)
    simp only [operandBytes, payloadBytes, htype, hstoull, numeral, largest, if_true]
    by_cases hle : 2 ^ 64 ≤ number (inside arg)
    · rw [if_pos hle]
      exact iff_of_false (fun ⟨_, hcode⟩ => by cases hcode) (by omega)
    · rw [if_neg hle]
      exact iff_of_true ⟨_, rfl⟩ (by omega)

/-- A complete number is read back. -/
theorem Complete.exact {labels : Labels} {arg : Str} {code : List Opcode} (h : Complete arg)
    (hcode : operandBytes labels arg = .ok code) : Exact arg code where
  toComplete := h
  fetched := by
    intro m hholds hfits
    obtain ⟨a, hread, hmeans⟩ := operandBytes_means hcode
    refine ⟨a, _, fetchArgument_reads hholds hfits hread, hmeans.type, ?_⟩
    obtain ⟨hdecimal, hbound, hbrackets⟩ := h
    unfold numeral at hdecimal hbound ⊢
    by_cases hmem : operandType arg = .indirectMem
    · rw [if_pos hmem] at hdecimal hbound ⊢
      exact hmeans.indirectMem _ hdecimal (hbrackets hmem) hbound
    · rw [if_neg hmem] at hdecimal hbound ⊢
      exact hmeans.literal hdecimal hbound

/-- **A number is exact or refused unless it slips.** For every word that is encoded as a
number; and in an accepted line all such words are exact if and only if none slips. -/
theorem numbers_exact_iff (labels : Labels) :
    (∀ arg, IsNumeric arg → '-' ∉ arg →
      ((∀ code, operandBytes labels arg = .ok code → Exact arg code) ↔ ¬ Slips arg)) ∧
    ∀ line mnemonic args bytes, instructionToOpcode line mnemonic args labels = .ok bytes →
      ((∀ arg ∈ args, IsNumeric arg → '-' ∉ arg → ∃ code, operandBytes labels arg = .ok code ∧ Exact arg code) ↔
        ∀ arg ∈ args, IsNumeric arg → '-' ∉ arg → ¬ Slips arg) := by
  have hword : ∀ arg, IsNumeric arg → '-' ∉ arg →
      ((∀ code, operandBytes labels arg = .ok code → Exact arg code) ↔ ¬ Slips arg) := by
    intro arg hnum hminus
    constructor
    · rintro hexact ⟨hrange, hincomplete⟩
      obtain ⟨code, hcode⟩ := (operandBytes_numeric labels hnum hminus).mpr hrange
      exact hincomplete (hexact code hcode).toComplete
    · intro hslips code hcode
      have hrange := (operandBytes_numeric labels hnum hminus).mp ⟨code, hcode⟩
      exact Complete.exact (by_contra fun h => hslips ⟨hrange, h⟩) hcode
  refine ⟨hword, fun line mnemonic args bytes h => ?_⟩
  obtain ⟨opcode, codes, -, hcodes, rfl⟩ := instructionToOpcode_eq_ok h
  refine forall₂_congr fun arg harg => forall₂_congr fun hnum hminus => ?_
  obtain ⟨code, hcode⟩ := encoded_mem hcodes harg
  rw [← hword arg hnum hminus]
  refine ⟨fun ⟨code', hcode', hexact⟩ code'' hcode'' => ?_, fun hall => ⟨code, hcode, hall code hcode⟩⟩
  rw [hcode'] at hcode''
  exact Except.ok.inj hcode'' ▸ hexact

theorem numbers_exact_iff_twelve : Exact "12".toList [0, 12] := by
  have hnumeral : numeral "12".toList = "12".toList := by decide +kernel
  refine ((numbers_exact_iff fun _ => none).1 "12".toList (.inl (by decide +kernel)) (by decide)).mpr
    (fun hslips => hslips.2 ⟨?_, ?_, ?_⟩) [0, 12] (by decide +kernel)
  · rw [hnumeral]
    exact ⟨by decide, List.all_eq_true.mp (by decide)⟩
  · rw [hnumeral]
    decide +kernel
  · intro h
    have htype : operandType "12".toList = .number := by decide +kernel
    rw [htype] at h
    cases h

/-- `12abc` is read as 12, and 70000 comes back as 4464. -/
theorem numbers_slip :
    asmToOpcodes "MOV A, 12abc\nMOV B, [70000]\nFBSET 70000, 1".toList = .ok
      [0, 2, 0x12, 1, 1, 0, 12, 0x12, 1, 2, 4, 0x11, 0x70, 0xD2, 6, 0x11, 0x70, 0, 1] ∧
    (IsNumeric "12abc".toList ∧ '-' ∉ "12abc".toList ∧
      operandBytes (fun _ => none) "12abc".toList = .ok [0, 12] ∧ ¬ Exact "12abc".toList [0, 12]) ∧
    (IsNumeric "[70000]".toList ∧ '-' ∉ "[70000]".toList ∧
      operandBytes (fun _ => none) "[70000]".toList = .ok [4, 0x11, 0x70] ∧
      ¬ Exact "[70000]".toList [4, 0x11, 0x70]) ∧
    IsNumeric "70000".toList ∧ '-' ∉ "70000".toList ∧
      operandBytes (fun _ => none) "70000".toList = .ok [6, 0x11, 0x70] ∧
      ¬ Exact "70000".toList [6, 0x11, 0x70] := by
  refine ⟨by decide +kernel, ⟨.inl (by decide +kernel), by decide, by decide +kernel, fun h => ?_⟩,
    ⟨.inr (.inr (by decide +kernel)), by decide, by decide +kernel, fun h => ?_⟩,
    .inr (.inl (by decide +kernel)), by decide, by decide +kernel, fun h => ?_⟩
  · have hnumeral : numeral "12abc".toList = "12abc".toList := by decide +kernel
    have hdecimal := h.decimal
    rw [hnumeral] at hdecimal
    exact absurd (hdecimal.2 'a' (by decide)) (by decide)
  · have hvalue : number (numeral "[70000]".toList) = 70000 := by decide +kernel
    have hbound := h.bound
    rw [hvalue] at hbound
    exact absurd hbound (by decide)
  · have hvalue : number (numeral "70000".toList) = 70000 := by decide +kernel
    have hbound := h.bound
    rw [hvalue] at hbound
    exact absurd hbound (by decide)

end CustomIsaVm.Assembler
