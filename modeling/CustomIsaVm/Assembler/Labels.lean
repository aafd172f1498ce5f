import CustomIsaVm.Assembler.Passes

/-! Undefined labels and the entry point.

The second pass looks every label up and throws where the table has none. Before it
starts, the header is made with `addresses_of_labels["start"]`, which enters `start`
at address 0 where it is missing: from then on `start` is never undefined, and an
address 0 stands for none. `labels_resolved_iff` says when neither matters. -/
namespace CustomIsaVm.Assembler
open Text Fold

/-! ### Uses of labels -/

/-- An operand of some line is the label, alone or in brackets. -/
def Uses (lines : List Str) (name : Str) : Prop :=
  ∃ line ∈ lines, ∃ mnemonic args, instructionOf line = mnemonic :: args ∧ mnemonic ≠ skipDirective ∧
    ∃ arg ∈ args, Names arg name

/-- The label an operand names is in the table, or the operand is not emitted. -/
theorem names_known {labels : Labels} {arg name : Str} {code : List Opcode} (hnames : Names arg name)
    (h : operandBytes labels arg = .ok code) : (labels name).isSome = true := by
  obtain ⟨payload, hpayload, -⟩ := bind_eq_ok.mp h
  rcases hnames with ⟨htype, rfl⟩ | ⟨htype, rfl⟩
  · simp only [payloadBytes, htype] at hpayload
    obtain ⟨addr, haddr, -⟩ := lookup_eq_ok hpayload
    simp [haddr]
  · simp only [payloadBytes, htype] at hpayload
    obtain ⟨addr, haddr, -⟩ := lookup_eq_ok hpayload
    simp [haddr]

/-- A second pass that returns has found every label. -/
theorem secondPass_known {labels : Labels} {lines : List Str} {s t : SecondPass} {name : Str}
    (h : lines.foldlM (secondPassLine labels) s = .ok t) (huses : Uses lines name) :
    (labels name).isSome = true := by
  obtain ⟨line, hline, mnemonic, args, hwords, hskip, arg, harg, hnames⟩ := huses
  obtain ⟨above, below, rfl⟩ := List.append_of_mem hline
  obtain ⟨u, -, h⟩ := foldlM_append_eq_ok.mp h
  obtain ⟨v, hv, -⟩ := foldlM_cons_eq_ok.mp h
  obtain ⟨part, hpart, -⟩ := secondPassLine_eq_ok hv
  cases hpart with
  | skipped hnone => rw [hwords] at hnone; cases hnone
  | skip hsame => rw [hwords] at hsame; cases hsame; exact absurd rfl hskip
  | instruction hsame _ _ hcodes =>
    rw [hwords] at hsame
    cases hsame
    obtain ⟨code, hcode⟩ := encoded_mem hcodes harg
    exact names_known hnames hcode

/-! ### Undefined labels -/

/-- The table with an address for every label. -/
def Labels.total (labels : Labels) : Labels := fun name => some ((labels name).getD 0)

/-- The exception for a label that the table does not have and a line uses. -/
def NotFound (lines : List Str) (labels : Labels) (e : Error) : Prop :=
  ∃ label, e = .labelNotFound label ∧ Uses lines label ∧ labels label = none

theorem lookup_total {labels : Labels} {label : Str} {code : List Opcode}
    (h : payloadBytes.lookup labels.total label = .ok code) :
    payloadBytes.lookup labels label = .ok code ∨
      (labels label = none ∧ payloadBytes.lookup labels label = .error (.labelNotFound label)) := by
  unfold payloadBytes.lookup Labels.total at *
  cases hlabel : labels label with
  | none => exact .inr ⟨rfl, rfl⟩
  | some addr =>
    rw [hlabel] at h
    exact .inl h

/-- An operand that would be emitted if every label had an address is emitted the same, or
names a label without one. -/
theorem operandBytes_total {labels : Labels} {arg : Str} {code : List Opcode}
    (h : operandBytes labels.total arg = .ok code) : operandBytes labels arg = .ok code ∨
      ∃ name, Names arg name ∧ labels name = none ∧ operandBytes labels arg = .error (.labelNotFound name) := by
  obtain ⟨payload, hpayload, hcode⟩ := bind_eq_ok.mp h
  have hemit : payloadBytes labels arg = .ok payload → operandBytes labels arg = .ok code := fun hok =>
    bind_eq_ok.mpr ⟨payload, hok, hcode⟩
  have hraise : ∀ e, payloadBytes labels arg = .error e → operandBytes labels arg = .error e := by
    intro e he
    rw [operandBytes, he]
    rfl
  cases htype : operandType arg with
  | address =>
    have hlookup : ∀ labels, payloadBytes labels arg = payloadBytes.lookup labels arg := fun labels => by
      simp only [payloadBytes, htype]
    rw [hlookup] at hpayload hemit hraise
    rcases lookup_total hpayload with hok | ⟨hnone, herror⟩
    · exact .inl (hemit hok)
    · exact .inr ⟨arg, .inl ⟨htype, rfl⟩, hnone, hraise _ herror⟩
  | indirectLbl =>
    have hlookup : ∀ labels, payloadBytes labels arg = payloadBytes.lookup labels (inside arg) :=
      fun labels => by simp only [payloadBytes, htype]
    rw [hlookup] at hpayload hemit hraise
    rcases lookup_total hpayload with hok | ⟨hnone, herror⟩
    · exact .inl (hemit hok)
    · exact .inr ⟨inside arg, .inr ⟨htype, rfl⟩, hnone, hraise _ herror⟩
  | _ =>
    refine .inl (hemit ?_)
    simp only [payloadBytes, htype] at hpayload ⊢
    exact hpayload

/-- A line that would be emitted if every label had an address is emitted the same, or
throws for a label without one. -/
theorem secondPassLine_total {labels : Labels} {lines : List Str} {line : Str} (hline : line ∈ lines)
    (s u : SecondPass) (h : secondPassLine labels.total s line = .ok u) :
    secondPassLine labels s line = .ok u ∨
      ∃ e, NotFound lines labels e ∧ secondPassLine labels s line = .error e := by
  unfold secondPassLine at h ⊢
  cases hwords : instructionOf line with
  | nil =>
    rw [hwords] at h
    exact .inl h
  | cons mnemonic args =>
    simp only [hwords] at h ⊢
    by_cases hskip : mnemonic = skipDirective
    · rw [if_pos hskip] at h ⊢
      exact .inl h
    · rw [if_neg hskip] at h ⊢
      obtain ⟨part, hpart, hu⟩ := bind_eq_ok.mp h
      obtain ⟨opcode, codes, hop, hcodes, rfl⟩ := instructionToOpcode_eq_ok hpart
      have hmap : args.mapM (operandBytes labels.total) = .ok codes := mapM_eq_ok.mpr hcodes
      have heach : ∀ arg ∈ args, ∀ code, operandBytes labels.total arg = .ok code →
          operandBytes labels arg = .ok code ∨
            ∃ e, NotFound lines labels e ∧ operandBytes labels arg = .error e := by
        intro arg harg code hcode
        rcases operandBytes_total hcode with hok | ⟨name, hnames, hnone, herror⟩
        · exact .inl hok
        · exact .inr ⟨_, ⟨name, rfl, ⟨line, hline, mnemonic, args, hwords, hskip, arg, harg, hnames⟩, hnone⟩,
            herror⟩
      simp only [instructionToOpcode, hop]
      rcases mapM_or_error hmap heach with hok | ⟨e, he, herror⟩
      · rw [hok]
        exact .inl hu
      · rw [herror]
        exact .inr ⟨e, he, rfl⟩

/-! ### What asm_to_opcodes owes -/

theorem withStart_isSome (labels : Labels) (name : Str) :
    (withStart labels name).isSome = true ↔ name = startLabel ∨ (labels name).isSome = true := by
  unfold withStart
  by_cases hname : name = startLabel
  · subst hname
    simp
  · rw [Function.update_of_ne hname]
    simp [hname]

theorem withStart_total (labels : Labels) : (withStart labels).total = labels.total := by
  funext name
  unfold Labels.total withStart
  by_cases hname : name = startLabel
  · subst hname
    rw [Function.update_self, Option.getD_some]
  · rw [Function.update_of_ne hname]

/-- Every label in use is defined, and the header is the address of `start`, or 2 without
one. -/
structure Resolved (lines : List Str) (labels : Labels) (bytes : List Opcode) : Prop where
  defined : ∀ name, Uses lines name → defines lines name = true
  header : bytes.take 2 =
    if defines lines startLabel = true then addressBytes ((labels startLabel).getD 0) else [0, 2]

/-- **Labels are resolved unless `start` is used without being defined, or is counted to
address 0.** A text in which undefined labels are all that is wrong, one of them not
`start`, is refused with that exception. -/
theorem labels_resolved_iff (code : Str) :
    (∀ first bytes, firstPass (getlines code) = .ok first → asmToOpcodes code = .ok bytes →
      (Resolved (getlines code) first.addressesOfLabels bytes ↔
        (Uses (getlines code) startLabel → defines (getlines code) startLabel = true) ∧
          first.addressesOfLabels startLabel ≠ some 0)) ∧
    ∀ first s, firstPass (getlines code) = .ok first →
      (getlines code).foldlM (secondPassLine first.addressesOfLabels.total)
        ⟨1, header first.addressesOfLabels⟩ = .ok s →
      (∃ name, Uses (getlines code) name ∧ defines (getlines code) name = false ∧ name ≠ startLabel) →
      ∃ label, asmToOpcodes code = .error (.labelNotFound label) ∧ Uses (getlines code) label ∧
        defines (getlines code) label = false := by
  have hknown : ∀ first, firstPass (getlines code) = .ok first → ∀ name,
      (first.addressesOfLabels name).isSome = defines (getlines code) name := by
    intro first hfirst
    have hstart : ∀ name, (FirstPass.start.addressesOfLabels name).isSome = defines [] name := fun _ => rfl
    exact firstPass_known hfirst hstart
  constructor
  · intro first bytes hfirst h
    obtain ⟨first', second, hfirst', hsecond, rfl⟩ := asmToOpcodes_eq_ok h
    rw [hfirst] at hfirst'
    cases hfirst'
    obtain ⟨part, -, hcodes, -⟩ := secondPass_decodes hsecond
    have htake : second.codes.take 2 = header first.addressesOfLabels := by
      rw [hcodes]
      rfl
    have hstart := hknown first hfirst startLabel
    have hdefined : (∀ name, Uses (getlines code) name → defines (getlines code) name = true) ↔
        (Uses (getlines code) startLabel → defines (getlines code) startLabel = true) := by
      refine ⟨fun h => h startLabel, fun h name huses => ?_⟩
      rcases (withStart_isSome _ name).mp (secondPass_known hsecond huses) with rfl | hsome
      · exact h huses
      · rw [← hknown first hfirst]
        exact hsome
    have hheader : (second.codes.take 2 = if defines (getlines code) startLabel = true then
        addressBytes ((first.addressesOfLabels startLabel).getD 0) else [0, 2]) ↔
        first.addressesOfLabels startLabel ≠ some 0 := by
      rw [htake, ← hstart]
      cases hlabel : first.addressesOfLabels startLabel with
      | none => simp [header, hlabel, highByte]
      | some addr =>
        by_cases hzero : addr = 0
        · subst hzero
          simp [header, hlabel, addressBytes, lowByte]
        · simp [header, hlabel, addressBytes, hzero]
    rw [← hdefined, ← hheader]
    exact ⟨fun h => ⟨h.defined, h.header⟩, fun h => ⟨h.1, h.2⟩⟩
  · rintro first s hfirst htotal ⟨name, huses, hundefined, hne⟩
    rw [← withStart_total] at htotal
    rcases foldlM_or_error htotal fun line hline s u hu => secondPassLine_total hline s u hu with
      hok | ⟨e, ⟨label, rfl, hlabel, hnone⟩, herror⟩
    · rcases (withStart_isSome _ name).mp (secondPass_known hok huses) with heq | hsome
      · exact absurd heq hne
      · rw [hknown first hfirst, hundefined] at hsome
        cases hsome
    · refine ⟨label, ?_, hlabel, ?_⟩
      · have hsecond : secondPass first.addressesOfLabels (getlines code) = .error (.labelNotFound label) :=
          herror
        rw [asmToOpcodes, hfirst]
        show secondPass first.addressesOfLabels (getlines code) >>= _ = _
        rw [hsecond]
        rfl
      · rw [← hknown first hfirst]
        have hmissing : ¬ (withStart first.addressesOfLabels label).isSome = true := by simp [hnone]
        rw [withStart_isSome, not_or] at hmissing
        simpa using hmissing.2

theorem labels_resolved_iff_loop : ∃ first, firstPass (getlines "start:\nJMP start".toList) = .ok first ∧
    (Resolved (getlines "start:\nJMP start".toList) first.addressesOfLabels [0, 2, 0x31, 2, 0, 2] ↔
      (Uses (getlines "start:\nJMP start".toList) startLabel →
        defines (getlines "start:\nJMP start".toList) startLabel = true) ∧
      first.addressesOfLabels startLabel ≠ some 0) := by
  have hfirst : (firstPass (getlines "start:\nJMP start".toList)).isOk = true := by decide +kernel
  cases h : firstPass (getlines "start:\nJMP start".toList) with
  | error e => rw [h] at hfirst; cases hfirst
  | ok first =>
    exact ⟨first, rfl, (labels_resolved_iff "start:\nJMP start".toList).1 first [0, 2, 0x31, 2, 0, 2] h
      (by decide +kernel)⟩

/-- A jump to `start` in a text without it becomes a jump to address 0. -/
theorem start_unresolved : asmToOpcodes "JMP start".toList = .ok [0, 2, 0x31, 2, 0, 0] ∧
    Uses (getlines "JMP start".toList) startLabel ∧
    defines (getlines "JMP start".toList) startLabel = false ∧
    ∀ labels, ¬ Resolved (getlines "JMP start".toList) labels [0, 2, 0x31, 2, 0, 0] := by
  have huses : Uses (getlines "JMP start".toList) startLabel :=
    ⟨"JMP start".toList, by decide +kernel, "JMP".toList, ["start".toList], by decide +kernel,
      by decide +kernel, "start".toList, by simp, .inl ⟨by decide +kernel, rfl⟩⟩
  have hundefined : defines (getlines "JMP start".toList) startLabel = false := by decide +kernel
  refine ⟨by decide +kernel, huses, hundefined, fun labels h => ?_⟩
  rw [h.defined _ huses] at hundefined
  cases hundefined

end CustomIsaVm.Assembler
