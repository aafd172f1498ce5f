import CustomIsaVm.Assembler.RoundTrip

/-! The two passes, compared.

`PassesAgree` is what the second pass relies on: the address recorded for a label
is the number of bytes emitted before it, and the final count is the size of the
image. It can fail. The first pass counts one byte for a literal above 255 and
the second emits two; a label that does not begin like one and is defined further
down, a label named like a number, a colon at the end of a line and commas inside
words are taken differently as well.

`drift` is that difference for one line, read off its operands. The passes agree
exactly when the drifts cancel before every label and in the whole text
(`passes_agree_iff`). -/
namespace CustomIsaVm.Assembler
open Text Fold

/-! ### Agreement -/

/-- `above` are the lines before the last label line named `name`. -/
def BeforeLabel (lines : List Str) (name : Str) (above : List Str) : Prop :=
  ∃ line below, lines = above ++ line :: below ∧ labelOf line = some name ∧
    ∀ l ∈ below, labelOf l ≠ some name

/-- The operand is the label `name`, or the label in brackets. -/
def Names (arg name : Str) : Prop :=
  (operandType arg = .address ∧ arg = name) ∨ (operandType arg = .indirectLbl ∧ inside arg = name)

/-- The passes agree on a text: the first ended in `first`, the second emitted `bytes`. -/
structure PassesAgree (code : Str) (first : FirstPass) (bytes : List Opcode) : Prop where
  recorded : ∀ name above, BeforeLabel (getlines code) name above →
    ∃ s addr, secondPass first.addressesOfLabels above = .ok s ∧
      first.addressesOfLabels name = some addr ∧ addr.toNat = s.codes.length
  dimension : first.currentDimension = bytes.length
  operand : ∀ name above s arg, BeforeLabel (getlines code) name above →
    secondPass first.addressesOfLabels above = .ok s → Names arg name →
    operandBytes (withStart first.addressesOfLabels) arg =
      .ok [(operandType arg).toByte, highByte s.codes.length, lowByte s.codes.length]
  header : ∀ above s, BeforeLabel (getlines code) startLabel above →
    secondPass first.addressesOfLabels above = .ok s →
    bytes.take 2 = [highByte s.codes.length, lowByte s.codes.length]

/-! ### Drift -/

/-- The first pass, below the lines `above`, takes the operand for two bytes: it is
the label of a line above, begins like a label, or stands in brackets and is not a
register. -/
def countedWide (above : List Str) (arg : Str) : Bool :=
  !(findRegister arg).isSome && (defines above arg || (arg.head?.any fun c => c.isAlpha || c == '_') ||
    (arg.head? == some '[' && endsIn ']' arg && !(findRegister (inside arg)).isSome))

/-- The second pass emits two bytes for the operand. -/
def emittedWide (arg : Str) : Bool := (operandType arg).payload == 2

/-- The operand of `.skip`. -/
def skipSize (size : Str) : Nat :=
  match stoull size with
  | .ok n => n
  | .error _ => 0

/-- The size of a line that is no label, for the first pass. -/
def countedSize (above : List Str) : List Str → Nat
  | [] => 0
  | firstTok :: args =>
    if firstTok = skipDirective then skipSize (args.headD [])
    else 1 + 2 * args.length + args.countP fun arg => countedWide above (popComma arg)

/-- The size of a line that is not skipped, for the second pass. -/
def emittedSize : List Str → Nat
  | [] => 0
  | mnemonic :: args =>
    if mnemonic = skipDirective then skipSize (args.headD [])
    else 1 + 2 * args.length + args.countP emittedWide

/-- How many bytes more the second pass emits for a line than the first has counted:
the operands that only it takes for two bytes, less those that only the first does.
A line that one of the passes alone takes for a label drifts by its whole size. -/
def drift (above : List Str) (line : Str) : Int :=
  match labelOf line, instructionOf line with
  | some _, instruction => emittedSize instruction
  | none, [] => -countedSize above (words (cutComment line))
  | none, mnemonic :: args =>
    if mnemonic = skipDirective then 0
    else args.countP emittedWide -
      ((words (cutComment line)).tail.countP fun arg => countedWide above (popComma arg) : Int)

/-- The drift of the lines that follow `above`. -/
def driftFrom (above : List Str) : List Str → Int
  | [] => 0
  | line :: lines => drift above line + driftFrom (above ++ [line]) lines

def totalDrift (lines : List Str) : Int := driftFrom [] lines

theorem driftFrom_append (above a b : List Str) :
    driftFrom above (a ++ b) = driftFrom above a + driftFrom (above ++ a) b := by
  induction a generalizing above with
  | nil => simp [driftFrom]
  | cons line a ih =>
    rw [List.cons_append, driftFrom, driftFrom, ih, List.append_assoc, List.singleton_append]
    omega

theorem totalDrift_snoc (lines : List Str) (line : Str) :
    totalDrift (lines ++ [line]) = totalDrift lines + drift lines line := by
  rw [totalDrift, driftFrom_append, List.nil_append, driftFrom, driftFrom, Int.add_zero]
  rfl

/-- The drifts cancel before every label, as far as an address can tell, and in the
whole text. -/
structure Balanced (lines : List Str) : Prop where
  label : ∀ name above, BeforeLabel lines name above → (2 ^ 16 : Int) ∣ totalDrift above
  whole : (2 ^ 64 : Int) ∣ totalDrift lines

/-! ### One line -/

theorem bracketType_isMemory (i : Str) : (bracketType i).isMemory = !(findRegister i).isSome := by
  unfold bracketType
  split
  next h => simp [h, ArgType.isMemory]
  next h => split <;> simp [h, ArgType.isMemory]

theorem firstPassType_isMemory {labels : Labels} {above : List Str} {arg : Str} {t : ArgType}
    (hknown : ∀ name, (labels name).isSome = defines above name)
    (h : firstPassType labels arg = .ok t) : t.isMemory = countedWide above arg := by
  unfold firstPassType at h
  rw [hknown] at h
  unfold countedWide
  split at h
  next hreg =>
    cases h
    simp [hreg, ArgType.isMemory]
  next hreg =>
    rw [Bool.not_eq_true] at hreg
    split at h
    next hlabel =>
      cases h
      rw [hreg, hlabel]
      rfl
    next hlabel =>
      rw [Bool.not_eq_true] at hlabel
      rw [hreg, hlabel]
      split at h
      next => cases h
      next =>
        split at h
        next hbracket =>
          cases h
          rw [bracketType_isMemory]
          simp [hbracket]
        next hbracket =>
          cases h
          simp [ArgType.isMemory]
          grind

theorem instructionSize_eq {labels : Labels} {above args : List Str} {types : List ArgType}
    (hknown : ∀ name, (labels name).isSome = defines above name) (h : Kinds labels args types) :
    instructionSize types =
      1 + 2 * args.length + args.countP fun arg => countedWide above (popComma arg) := by
  unfold instructionSize
  induction h with
  | nil => rfl
  | @cons arg t args types ht _ ih =>
    have hwide := firstPassType_isMemory hknown ht
    have hbit : (if countedWide above (popComma arg) = true then 1 else 0) =
        (countedWide above (popComma arg)).toNat := by
      cases countedWide above (popComma arg) <;> rfl
    rw [List.map_cons, List.sum_cons, List.length_cons, List.countP_cons, hwide, hbit]
    omega

theorem operandBytes_length {labels : Labels} {arg : Str} {code : List Opcode}
    (h : operandBytes labels arg = .ok code) : code.length = 2 + (emittedWide arg).toNat := by
  obtain ⟨a, ha, hmeans⟩ := operandBytes_means h
  have hlen := readArgument_length ha
  rw [hmeans.type] at hlen
  rw [hlen, emittedWide]
  have := operandType_ne_other arg
  cases htype : operandType arg <;> simp_all [ArgType.payload]

theorem encoded_length {labels : Labels} {args : List Str} {codes : List (List Opcode)}
    (h : Encoded labels args codes) : codes.flatten.length = 2 * args.length + args.countP emittedWide := by
  induction h with
  | nil => rfl
  | @cons arg code args codes hcode _ ih =>
    have hlen := operandBytes_length hcode
    rw [List.flatten_cons, List.length_append, ih, hlen, List.length_cons, List.countP_cons]
    cases emittedWide arg <;> simp <;> omega

theorem secondLine_length {labels : Labels} {line : Str} {part : List Opcode}
    (h : SecondLine labels line part) : part.length = emittedSize (instructionOf line) := by
  cases h with
  | skipped hwords => rw [hwords]; rfl
  | skip hwords hn => simp [hwords, emittedSize, skipSize, hn]
  | instruction hwords hskip hop hcodes =>
    rw [hwords, emittedSize, if_neg hskip, List.length_cons, encoded_length hcodes]
    omega

theorem instructionOf_of_blank {line : Str} (h : words (cutComment line) = []) :
    instructionOf line = [] := by
  by_contra hne
  have heq := instructionOf_eq hne
  rw [h] at heq
  exact hne heq

/-- What the first pass counts for a line, up to a wrap of `std::size_t`. -/
theorem firstLine_counts {s s' : FirstPass} {above : List Str} {line : Str}
    (hknown : ∀ name, (s.addressesOfLabels name).isSome = defines above name)
    (h : FirstLine s line s') : ∃ k : Int, (s'.currentDimension : Int) = s.currentDimension +
      (if labelOf line = none then countedSize above (words (cutComment line)) else 0 : Nat) + 2 ^ 64 * k := by
  have hcount : ∀ n, ∃ k : Int, ((s.count n).currentDimension : Int) =
      s.currentDimension + n + 2 ^ 64 * k := fun n =>
    ⟨-((s.currentDimension + n) / 2 ^ 64 : Nat), by rw [count_dimension]; omega⟩
  cases h with
  | blank hwords => exact ⟨0, by simp [hwords, countedSize]⟩
  | label hlabel => exact ⟨0, by simp [hlabel]⟩
  | @skip sizeStr rest n hlabel hwords hn =>
    rw [if_pos hlabel, hwords, countedSize, if_pos rfl, List.headD_cons, skipSize, hn]
    exact hcount n
  | instruction hlabel hwords hskip htypes hop =>
    rw [if_pos hlabel, hwords, countedSize, if_neg hskip, ← instructionSize_eq hknown htypes]
    exact hcount _

/-- The mnemonic and the number of operands are the same for both passes. -/
theorem both_instruction {line mnemonic mnemonic' : Str} {args args' : List Str} {op op' : Opcode}
    (hfirst : words (cutComment line) = mnemonic :: args)
    (hop : findOpcode mnemonic args.length = some op) (hsecond : instructionOf line = mnemonic' :: args')
    (hop' : findOpcode mnemonic' args'.length = some op') :
    mnemonic' = mnemonic ∧ args'.length = args.length := by
  obtain ⟨rfl, -⟩ := instructionOf_cons hfirst (comma_notin_mnemonic hop) hsecond
  exact ⟨rfl, findOpcode_arity hop' hop⟩

/-- `.skip` reserves as many bytes in one pass as in the other. -/
theorem both_skip {line sizeStr size : Str} {rest : List Str} {n m : Nat}
    (hfirst : words (cutComment line) = skipDirective :: sizeStr :: rest) (hn : stoull sizeStr = .ok n)
    (hsecond : instructionOf line = [skipDirective, size]) (hm : stoull size = .ok m) : m = n := by
  obtain ⟨-, hargs⟩ := instructionOf_cons hfirst (by decide) hsecond
  have hmem : sizeStr ∈ words (cutComment line) := by
    rw [hfirst]
    exact List.mem_cons_of_mem _ (List.mem_cons_self ..)
  obtain ⟨size', more, hpieces, hsize'⟩ := pieces_stoull hmem hn
  rw [List.flatMap_cons, hpieces, List.cons_append] at hargs
  obtain ⟨rfl, -⟩ := List.cons.inj hargs
  rw [hm] at hsize'
  exact Except.ok.inj hsize'

/-- `drift` is what the second pass emits less what the first counts. -/
theorem drift_eq {labels : Labels} {s s' : FirstPass} {above : List Str} {line : Str} {part : List Opcode}
    (hfirst : FirstLine s line s') (hsecond : SecondLine labels line part) :
    drift above line = emittedSize (instructionOf line) -
      (if labelOf line = none then countedSize above (words (cutComment line)) else 0 : Nat) := by
  unfold drift
  split
  next name hlabel => simp [hlabel]
  next hlabel hwords => simp [hlabel, hwords, emittedSize]
  next mnemonic args hlabel hwords =>
    rw [if_pos hlabel, hwords]
    cases hfirst with
    | blank hblank => rw [instructionOf_of_blank hblank] at hwords; cases hwords
    | label h => rw [hlabel] at h; cases h
    | @skip sizeStr rest n _ hline hn =>
      obtain ⟨rfl, -⟩ := instructionOf_cons hline (by decide) hwords
      cases hsecond with
      | skipped h => rw [h] at hwords; cases hwords
      | @skip size m h hm =>
        rw [h] at hwords
        cases hwords
        have := both_skip hline hn h hm
        simp [hline, emittedSize, countedSize, skipSize, hn, hm, this]
      | instruction h hskip =>
        rw [h] at hwords
        cases hwords
        exact absurd rfl hskip
    | instruction _ hline hskip _ hop =>
      cases hsecond with
      | skipped h => rw [h] at hwords; cases hwords
      | skip h =>
        rw [h] at hwords
        cases hwords
        obtain ⟨heq, -⟩ := instructionOf_cons hline (comma_notin_mnemonic hop) h
        exact absurd heq.symm hskip
      | instruction h hskip' hop' =>
        rw [h] at hwords
        cases hwords
        obtain ⟨rfl, hlen⟩ := both_instruction hline hop h hop'
        rw [if_neg hskip, hline, emittedSize, countedSize, if_neg hskip, if_neg hskip, List.tail_cons, hlen]
        omega

/-! ### The whole text -/

/-- How far the passes are apart below the lines `above`. -/
structure Apart (above : List Str) (s : FirstPass) (t : SecondPass) : Prop where
  known : ∀ name, (s.addressesOfLabels name).isSome = defines above name
  bounded : s.currentDimension < 2 ^ 64
  apart : ∃ k : Int, (t.codes.length : Int) - s.currentDimension = totalDrift above + 2 ^ 64 * k

theorem apart_start (labels : Labels) : Apart [] .start ⟨1, header labels⟩ where
  known name := rfl
  bounded := by decide
  apart := ⟨0, rfl⟩

theorem Apart.step {labels : Labels} {above : List Str} {s s' : FirstPass} {t t' : SecondPass} {line : Str}
    (h : Apart above s t) (hs : firstPassLine s line = .ok s')
    (ht : secondPassLine labels t line = .ok t') : Apart (above ++ [line]) s' t' := by
  have hfirst := firstPassLine_eq_ok hs
  obtain ⟨part, hsecond, hcodes⟩ := secondPassLine_eq_ok ht
  refine ⟨?_, ?_, ?_⟩
  · exact firstPass_known (foldlM_cons_eq_ok.mpr ⟨s', hs, rfl⟩) h.known
  · cases hfirst with
    | blank => exact h.bounded
    | label => exact h.bounded
    | skip => exact Nat.mod_lt _ (by decide)
    | instruction => exact Nat.mod_lt _ (by decide)
  · obtain ⟨k, hk⟩ := h.apart
    obtain ⟨j, hj⟩ := firstLine_counts h.known hfirst
    have hlen := secondLine_length hsecond
    have hdrift : drift above line = _ := drift_eq hfirst hsecond
    refine ⟨k - j, ?_⟩
    rw [hcodes, List.length_append, hlen, hj, totalDrift_snoc, hdrift, Int.mul_sub]
    omega

theorem passes_apart {labels : Labels} {lines : List Str} {s : FirstPass} {t : SecondPass}
    (hs : firstPass lines = .ok s) (ht : secondPass labels lines = .ok t) : Apart lines s t :=
  foldlM_along₂ (I := Apart) [] (fun _ _ _ _ _ _ h hs ht => h.step hs ht) hs ht (apart_start labels)

theorem secondPass_grows {labels : Labels} {lines : List Str} {t t' : SecondPass}
    (h : lines.foldlM (secondPassLine labels) t = .ok t') : t.codes <+: t'.codes := by
  refine foldlM_along (I := fun _ (u : SecondPass) => t.codes <+: u.codes) []
    (fun _ s line u hs hu => ?_) h (List.prefix_refl _)
  obtain ⟨part, -, hcodes⟩ := secondPassLine_eq_ok hu
  exact hs.trans ⟨part, hcodes.symm⟩

/-- Both passes have come to the label line: the first records how far it has
counted, and the second has emitted the header and maybe more. -/
theorem label_reached {lines above : List Str} {name : Str} {first : FirstPass} {second : SecondPass}
    (hlabel : BeforeLabel lines name above) (hfirst : firstPass lines = .ok first)
    (hsecond : secondPass first.addressesOfLabels lines = .ok second) :
    ∃ s t, firstPass above = .ok s ∧ secondPass first.addressesOfLabels above = .ok t ∧
      first.addressesOfLabels name = some (UInt16.ofNat s.currentDimension) ∧
      t.codes <+: second.codes ∧ 2 ≤ t.codes.length := by
  obtain ⟨line, below, rfl, hname, hlast⟩ := hlabel
  obtain ⟨s, hs, hfirst⟩ := foldlM_append_eq_ok.mp hfirst
  obtain ⟨u, hu, hfirst⟩ := foldlM_cons_eq_ok.mp hfirst
  obtain ⟨t, ht, hsecond⟩ := foldlM_append_eq_ok.mp hsecond
  refine ⟨s, t, hs, ht, ?_, secondPass_grows hsecond, ?_⟩
  · rw [firstPass_keeps hfirst hlast]
    cases firstPassLine_eq_ok hu with
    | blank hwords => simp [labelOf, hwords] at hname
    | label hlabel =>
      rw [hlabel] at hname
      cases hname
      rw [define_labels, Function.update_self]
    | skip hlabel => rw [hlabel] at hname; cases hname
    | instruction hlabel => rw [hlabel] at hname; cases hname
  · have := (secondPass_grows ht).length_le
    exact this

/-- An address is right exactly when the drift before it cancels. -/
theorem recorded_iff {above : List Str} {s : FirstPass} {t : SecondPass} (h : Apart above s t)
    (hlen : t.codes.length < 65536) :
    (UInt16.ofNat s.currentDimension).toNat = t.codes.length ↔ (2 ^ 16 : Int) ∣ totalDrift above := by
  obtain ⟨k, hk⟩ := h.apart
  rw [UInt16.toNat_ofNat']
  omega

theorem withStart_of_some {labels : Labels} {name : Str} {addr : MemAddr} (h : labels name = some addr) :
    withStart labels name = some addr := by
  unfold withStart
  by_cases hname : name = startLabel
  · subst hname
    rw [Function.update_self, h]
    rfl
  · rw [Function.update_of_ne hname, h]

/-- An operand that names a label is emitted as its address. -/
theorem operandBytes_of_names {labels : Labels} {arg name : Str} {addr : MemAddr}
    (hnames : Names arg name) (h : labels name = some addr) :
    operandBytes labels arg = .ok ((operandType arg).toByte :: addressBytes addr) := by
  rcases hnames with ⟨htype, rfl⟩ | ⟨htype, rfl⟩ <;>
    simp only [operandBytes, payloadBytes, payloadBytes.lookup, htype, h] <;> rfl

/-- The header is the address of `start`. -/
theorem header_of_some {labels : Labels} {addr : MemAddr} (h : labels startLabel = some addr)
    (hpos : 0 < addr.toNat) : header labels = addressBytes addr := by
  have hne : addr ≠ 0 := by
    rintro rfl
    exact absurd hpos (by decide)
  simp [header, addressBytes, h, hne]

/-- **The passes agree exactly when the drifts cancel**, before every label and in
the whole text. -/
theorem passes_agree_iff (code : Str) (first : FirstPass) (bytes : List Opcode)
    (h : asmToOpcodes code = .ok bytes) (hfirst : firstPass (getlines code) = .ok first)
    (hlen : bytes.length < 65536) : PassesAgree code first bytes ↔ Balanced (getlines code) := by
  obtain ⟨first', second, hfirst', hsecond, rfl⟩ := asmToOpcodes_eq_ok h
  rw [hfirst] at hfirst'
  cases hfirst'
  have hall := passes_apart hfirst hsecond
  constructor
  · intro hagree
    refine ⟨fun name above hlabel => ?_, ?_⟩
    · obtain ⟨s, t, hs, ht, hrecorded, hgrows, -⟩ := label_reached hlabel hfirst hsecond
      obtain ⟨t', addr, ht', haddr, heq⟩ := hagree.recorded name above hlabel
      rw [ht] at ht'
      cases ht'
      rw [hrecorded] at haddr
      cases haddr
      exact (recorded_iff (passes_apart hs ht) (by have := hgrows.length_le; omega)).mp heq
    · obtain ⟨k, hk⟩ := hall.apart
      have := hagree.dimension
      omega
  · intro hbalanced
    -- where a label is, its address is right
    have hright : ∀ name above t, BeforeLabel (getlines code) name above →
        secondPass first.addressesOfLabels above = .ok t → ∃ addr,
          first.addressesOfLabels name = some addr ∧ addr.toNat = t.codes.length ∧
          2 ≤ t.codes.length := by
      intro name above t hlabel ht
      obtain ⟨s, t', hs, ht', hrecorded, hgrows, htwo⟩ := label_reached hlabel hfirst hsecond
      rw [ht] at ht'
      cases ht'
      exact ⟨_, hrecorded, (recorded_iff (passes_apart hs ht)
        (by have := hgrows.length_le; omega)).mpr (hbalanced.label name above hlabel), htwo⟩
    refine ⟨fun name above hlabel => ?_, ?_, fun name above t arg hlabel ht hnames => ?_,
      fun above t hlabel ht => ?_⟩
    · obtain ⟨s, t, hs, ht, -⟩ := label_reached hlabel hfirst hsecond
      obtain ⟨addr, haddr, heq, -⟩ := hright name above t hlabel ht
      exact ⟨t, addr, ht, haddr, heq⟩
    · obtain ⟨k, hk⟩ := hall.apart
      have := hbalanced.whole
      have := hall.bounded
      omega
    · obtain ⟨addr, haddr, heq, -⟩ := hright name above t hlabel ht
      rw [operandBytes_of_names hnames (withStart_of_some haddr), addressBytes, heq]
    · obtain ⟨addr, haddr, heq, htwo⟩ := hright startLabel above t hlabel ht
      obtain ⟨part, -, hcodes, -⟩ := secondPass_decodes hsecond
      rw [hcodes, header_of_some haddr (by omega), addressBytes, heq]
      rfl

theorem passes_agree_iff_loop : ∃ first, firstPass (getlines "start:\nJMP start".toList) = .ok first ∧
    (PassesAgree "start:\nJMP start".toList first [0, 2, 0x31, 2, 0, 2] ↔
      Balanced (getlines "start:\nJMP start".toList)) := by
  have hfirst : (firstPass (getlines "start:\nJMP start".toList)).isOk = true := by decide +kernel
  cases h : firstPass (getlines "start:\nJMP start".toList) with
  | error e => rw [h] at hfirst; cases hfirst
  | ok first =>
    exact ⟨first, rfl, passes_agree_iff "start:\nJMP start".toList first [0, 2, 0x31, 2, 0, 2]
      (by decide +kernel) h (by decide)⟩

/-- The first pass counts a byte less for `256`, and puts `end` into the middle of
the instruction before it. -/
theorem passes_disagree : ∃ first,
    asmToOpcodes "FBSET 256, 1\nend:\nHALT".toList = .ok [0, 2, 0xD2, 6, 1, 0, 0, 1, 0xFF] ∧
    firstPass (getlines "FBSET 256, 1\nend:\nHALT".toList) = .ok first ∧
    first.addressesOfLabels "end".toList = some 7 ∧
    ¬PassesAgree "FBSET 256, 1\nend:\nHALT".toList first [0, 2, 0xD2, 6, 1, 0, 0, 1, 0xFF] := by
  have hfirst : (firstPass (getlines "FBSET 256, 1\nend:\nHALT".toList)).map
      (fun s => (s.currentDimension, s.addressesOfLabels "end".toList)) = .ok (8, some 7) := by
    decide +kernel
  cases h : firstPass (getlines "FBSET 256, 1\nend:\nHALT".toList) with
  | error e => rw [h] at hfirst; cases hfirst
  | ok first =>
    rw [h] at hfirst
    injection hfirst with hfirst
    injection hfirst with hdim hlabel
    refine ⟨first, by decide +kernel, rfl, hlabel, fun hagree => ?_⟩
    have := hagree.dimension
    rw [hdim] at this
    exact absurd this (by decide)

end CustomIsaVm.Assembler
