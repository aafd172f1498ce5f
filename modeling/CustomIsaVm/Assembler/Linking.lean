import CustomIsaVm.Assembler.Labels

/-! Source files assembled together.

`asm_file_to_code` adds the lines of a file to the code read so far, so that two files
read one after the other are one text with one label table. Behind another file, the
first pass counts on from where it has come to: it knows the labels of both files, and
those of the second are higher by `offset` (`Behind`). The second pass emits for a file
what it emits for it alone, up to the addresses of labels: `linking` says where they
are the same and where they are raised, `code_kept_iff` when the code of the first
file is the same. -/
namespace CustomIsaVm

/-- An operand that is the address of a label, raised. -/
def RawArgument.raised (offset : MemAddr) (a : RawArgument) : RawArgument :=
  if a.type = .address ∨ a.type = .indirectLbl then {a with value := a.value + offset} else a

/-- The instruction, with the addresses of labels raised. -/
def Decoded.raised (offset : MemAddr) (d : Decoded) : Decoded := (d.1, d.2.map (·.raised offset))

namespace Assembler
open Text Fold

/-- Two files read one after the other are the lines of both. -/
theorem getlines_joined (a b : Str) :
    getlines (asmFileToCode b (asmFileToCode a [])) = getlines a ++ getlines b := by
  rw [asmFileToCode, asmFileToCode, List.nil_append, ← unlines_append]
  refine getlines_unlines _ fun line hline => ?_
  rcases List.mem_append.mp hline with h | h
  · exact newline_notin_getlines a line h
  · exact newline_notin_getlines b line h

/-! ### The first pass behind another file -/

/-- How far the labels of the next file are raised: the bytes counted so far, without the
header, which is counted once. -/
def FirstPass.offset (s : FirstPass) : MemAddr := UInt16.ofNat s.currentDimension - 2

/-- The label table of a file behind the one that ended in `s`. -/
def FirstPass.linked (s t : FirstPass) : Labels := fun name =>
  match t.addressesOfLabels name with
  | some addr => some (addr + s.offset)
  | none => s.addressesOfLabels name

/-- `t` has come as far in a file as `t'` has behind the file that ended in `s`. -/
structure Behind (s t t' : FirstPass) : Prop where
  labels : t'.addressesOfLabels = s.linked t
  dimension : UInt16.ofNat t'.currentDimension = UInt16.ofNat t.currentDimension + s.offset

/-- The name begins as the first pass expects of a label. -/
def LikeLabel (name : Str) : Prop := (name.head?.any fun c => c.isAlpha || c == '_') = true

section
variable {s t t' : FirstPass}

theorem Behind.start (s : FirstPass) : Behind s .start s where
  labels := rfl
  dimension := by
    rw [FirstPass.offset, show UInt16.ofNat FirstPass.start.currentDimension = 2 from rfl, UInt16.add_comm,
      UInt16.sub_add_cancel]

theorem ofNat_count (s : FirstPass) (n : Nat) :
    UInt16.ofNat (s.count n).currentDimension = UInt16.ofNat s.currentDimension + UInt16.ofNat n := by
  rw [count_dimension]
  apply UInt16.toNat_inj.mp
  rw [UInt16.toNat_add, UInt16.toNat_ofNat', UInt16.toNat_ofNat', UInt16.toNat_ofNat']
  omega

theorem Behind.count (h : Behind s t t') (n : Nat) : Behind s (t.count n) (t'.count n) where
  labels := h.labels
  dimension := by
    rw [ofNat_count, ofNat_count, h.dimension, UInt16.add_assoc, UInt16.add_assoc, UInt16.add_comm s.offset]

theorem Behind.define (h : Behind s t t') (name : Str) : Behind s (t.define name) (t'.define name) where
  labels := by
    funext n
    rw [define_labels, FirstPass.linked, define_labels, h.labels]
    by_cases hn : n = name
    · subst hn
      rw [Function.update_self, Function.update_self, h.dimension]
    · rw [Function.update_of_ne hn, Function.update_of_ne hn, FirstPass.linked]
  dimension := h.dimension

/-- An operand is of the same kind, if no label of the other file is taken for one only
because it is known. -/
theorem Behind.types (h : Behind s t t')
    (hnamed : ∀ name, (s.addressesOfLabels name).isSome = true → LikeLabel name) (arg : Str) :
    firstPassType t'.addressesOfLabels arg = firstPassType t.addressesOfLabels arg := by
  have hknown : ((t'.addressesOfLabels arg).isSome || arg.head?.any fun c => c.isAlpha || c == '_') =
      ((t.addressesOfLabels arg).isSome || arg.head?.any fun c => c.isAlpha || c == '_') := by
    rw [h.labels, FirstPass.linked]
    cases ht : t.addressesOfLabels arg with
    | some addr => rfl
    | none =>
      cases hs : s.addressesOfLabels arg with
      | none => rfl
      | some addr =>
        have hlike : LikeLabel arg := hnamed arg (by rw [hs]; rfl)
        rw [LikeLabel] at hlike
        rw [hlike]
        rfl
  rw [firstPassType, firstPassType, hknown]

theorem Behind.line (h : Behind s t t')
    (hnamed : ∀ name, (s.addressesOfLabels name).isSome = true → LikeLabel name) {u : FirstPass} {line : Str}
    (hline : firstPassLine t line = .ok u) : ∃ u', firstPassLine t' line = .ok u' ∧ Behind s u u' := by
  have htypes : (fun arg => firstPassType t'.addressesOfLabels (popComma arg)) =
      fun arg => firstPassType t.addressesOfLabels (popComma arg) :=
    funext fun arg => h.types hnamed (popComma arg)
  unfold firstPassLine at hline ⊢
  split at hline
  next => cases hline; exact ⟨t', rfl, h⟩
  next firstTok args =>
    split at hline
    next hcolon => cases hline; exact ⟨_, if_pos hcolon, h.define _⟩
    next hcolon =>
      rw [if_neg hcolon]
      split at hline
      next hskip =>
        rw [if_pos hskip]
        split at hline
        next => cases hline
        next =>
          obtain ⟨n, hn, hline⟩ := bind_eq_ok.mp hline
          cases hline
          exact ⟨_, bind_eq_ok.mpr ⟨n, hn, rfl⟩, h.count n⟩
      next hskip =>
        rw [if_neg hskip, htypes]
        obtain ⟨types, hkinds, hline⟩ := bind_eq_ok.mp hline
        split at hline
        next opcode hop =>
          cases hline
          refine ⟨_, bind_eq_ok.mpr ⟨types, hkinds, ?_⟩, h.count _⟩
          rw [hop]
          rfl
        next => cases hline

/-- **The first pass of a file behind another one.** -/
theorem firstPass_behind {lines : List Str}
    (hnamed : ∀ name, (s.addressesOfLabels name).isSome = true → LikeLabel name)
    (h : firstPass lines = .ok t) : ∃ t', lines.foldlM firstPassLine s = .ok t' ∧ Behind s t t' :=
  foldlM_follow (fun _ _ _ _ hst hline => hst.line hnamed hline) h (.start s)

end

/-! ### The bytes of the lines -/

theorem secondPassLine_ok {labels : Labels} {line : Str} {part : List Opcode} (h : SecondLine labels line part)
    (s : SecondPass) : ∃ s', secondPassLine labels s line = .ok s' ∧ s'.codes = s.codes ++ part := by
  unfold secondPassLine
  cases h with
  | skipped hwords =>
    rw [hwords]
    exact ⟨s, rfl, (List.append_nil _).symm⟩
  | skip hwords hn =>
    rw [hwords]
    exact ⟨_, (if_pos rfl).trans (bind_eq_ok.mpr ⟨_, parsed_eq_ok.mpr hn, rfl⟩), rfl⟩
  | instruction hwords hskip hop hcodes =>
    rw [hwords]
    refine ⟨_, (if_neg hskip).trans (bind_eq_ok.mpr ⟨_, ?_, rfl⟩), rfl⟩
    rw [instructionToOpcode, hop]
    exact bind_eq_ok.mpr ⟨_, mapM_eq_ok.mpr hcodes, rfl⟩

/-- Each line gives its part of the code. -/
abbrev Parts (labels : Labels) (lines : List Str) (parts : List (List Opcode)) : Prop :=
  List.Forall₂ (SecondLine labels) lines parts

theorem secondPass_iff {labels : Labels} {lines : List Str} {s : SecondPass} {codes : List Opcode} :
    (∃ s', lines.foldlM (secondPassLine labels) s = .ok s' ∧ s'.codes = codes) ↔
      ∃ parts, Parts labels lines parts ∧ codes = s.codes ++ parts.flatten := by
  induction lines generalizing s codes with
  | nil =>
    constructor
    · rintro ⟨_, h, rfl⟩
      cases h
      exact ⟨[], .nil, (List.append_nil _).symm⟩
    · rintro ⟨_, hnil, rfl⟩
      cases hnil
      exact ⟨s, rfl, (List.append_nil _).symm⟩
  | cons line lines ih =>
    constructor
    · rintro ⟨s', h, rfl⟩
      obtain ⟨u, hu, h⟩ := foldlM_cons_eq_ok.mp h
      obtain ⟨part, hpart, hcodes⟩ := secondPassLine_eq_ok hu
      obtain ⟨parts, hparts, hrest⟩ := ih.mp ⟨s', h, rfl⟩
      exact ⟨part :: parts, .cons hpart hparts, by rw [hrest, hcodes, List.flatten_cons, List.append_assoc]⟩
    · rintro ⟨_, hparts, rfl⟩
      obtain ⟨part, parts, hpart, hrest, rfl⟩ := List.forall₂_cons_left_iff.mp hparts
      obtain ⟨u, hu, hcodes⟩ := secondPassLine_ok hpart s
      obtain ⟨s', hs', hcodes'⟩ := ih.mpr ⟨parts, hrest, rfl⟩
      exact ⟨s', foldlM_cons_eq_ok.mpr ⟨u, hu, hs'⟩, by
        rw [hcodes', hcodes, List.flatten_cons, List.append_assoc]⟩

theorem parts_unique {labels : Labels} {lines : List Str} {parts parts' : List (List Opcode)}
    (h : Parts labels lines parts) (h' : Parts labels lines parts') : parts.flatten = parts'.flatten := by
  obtain ⟨s, hs, hcodes⟩ := (secondPass_iff (s := ⟨1, []⟩)).mpr ⟨parts, h, rfl⟩
  obtain ⟨s', hs', hcodes'⟩ := (secondPass_iff (s := ⟨1, []⟩)).mpr ⟨parts', h', rfl⟩
  cases hs.symm.trans hs'
  exact hcodes.symm.trans hcodes'

theorem parts_lengths {labels : Labels} {lines : List Str} {parts : List (List Opcode)}
    (h : Parts labels lines parts) :
    parts.map List.length = lines.map fun line => emittedSize (instructionOf line) := by
  induction h with
  | nil => rfl
  | cons hline _ ih => rw [List.map_cons, List.map_cons, secondLine_length hline, ih]

/-- An image is the header and the parts of the lines. -/
theorem asmToOpcodes_iff {code : Str} {bytes : List Opcode} : asmToOpcodes code = .ok bytes ↔
    ∃ first parts, firstPass (getlines code) = .ok first ∧
      Parts (withStart first.addressesOfLabels) (getlines code) parts ∧
      bytes = header first.addressesOfLabels ++ parts.flatten := by
  constructor
  · intro h
    obtain ⟨first, second, hfirst, hsecond, rfl⟩ := asmToOpcodes_eq_ok h
    obtain ⟨parts, hparts, hcodes⟩ := secondPass_iff.mp ⟨second, hsecond, rfl⟩
    exact ⟨first, parts, hfirst, hparts, hcodes⟩
  · rintro ⟨first, parts, hfirst, hparts, rfl⟩
    obtain ⟨second, hsecond, hcodes⟩ := secondPass_iff (s := ⟨1, header first.addressesOfLabels⟩).mpr
      ⟨parts, hparts, rfl⟩
    exact bind_eq_ok.mpr ⟨first, hfirst, bind_eq_ok.mpr ⟨second, hsecond, congrArg Except.ok hcodes⟩⟩

/-! ### Other addresses -/

theorem Uses.mono {lines lines' : List Str} {name : Str} (h : Uses lines name)
    (hsub : ∀ line ∈ lines, line ∈ lines') : Uses lines' name := by
  obtain ⟨line, hline, hrest⟩ := h
  exact ⟨line, hsub line hline, hrest⟩

theorem uses_operand {line mnemonic arg name : Str} {args : List Str} (hwords : instructionOf line = mnemonic :: args)
    (hskip : mnemonic ≠ skipDirective) (harg : arg ∈ args) (hnames : Names arg name) : Uses [line] name :=
  ⟨line, List.mem_singleton.mpr rfl, mnemonic, args, hwords, hskip, arg, harg, hnames⟩

theorem operandBytes_congr {labels labels' : Labels} {arg : Str}
    (h : ∀ name, Names arg name → labels' name = labels name) :
    operandBytes labels' arg = operandBytes labels arg := by
  have hlookup : ∀ name, Names arg name → payloadBytes.lookup labels' name = payloadBytes.lookup labels name :=
    fun name hname => by rw [payloadBytes.lookup, payloadBytes.lookup, h name hname]
  have hpayload : payloadBytes labels' arg = payloadBytes labels arg := by
    unfold payloadBytes
    cases htype : operandType arg with
    | address => exact hlookup arg (.inl ⟨htype, rfl⟩)
    | indirectLbl => exact hlookup (inside arg) (.inr ⟨htype, rfl⟩)
    | _ => rfl
  rw [operandBytes, operandBytes, hpayload]

/-- A line gives the same bytes if the labels it uses have the same addresses. -/
theorem SecondLine.congr {labels labels' : Labels} {line : Str} {part : List Opcode}
    (h : SecondLine labels line part) (hsame : ∀ name, Uses [line] name → labels' name = labels name) :
    SecondLine labels' line part := by
  cases h with
  | skipped hwords => exact .skipped hwords
  | skip hwords hn => exact .skip hwords hn
  | instruction hwords hskip hop hcodes =>
    have hargs : ∀ arg ∈ _, ∀ name, Names arg name → labels' name = labels name := fun arg harg name hnames =>
      hsame name (uses_operand hwords hskip harg hnames)
    refine .instruction hwords hskip hop (((List.forall₂_and_left _ _).mpr ⟨hargs, hcodes⟩).imp ?_)
    exact fun arg code hcode => (operandBytes_congr hcode.1).trans hcode.2

theorem encoded_lengths {labels : Labels} {args : List Str} {codes : List (List Opcode)}
    (h : Encoded labels args codes) : codes.map List.length = args.map fun arg => 2 + (emittedWide arg).toNat := by
  induction h with
  | nil => rfl
  | cons hcode _ ih => rw [List.map_cons, List.map_cons, operandBytes_length hcode, ih]

theorem addressBytes_injective {addr addr' : MemAddr} (h : addressBytes addr = addressBytes addr') :
    addr = addr' := by
  rw [addressBytes, addressBytes, List.cons.injEq, List.cons.injEq] at h
  rw [← word_addressBytes addr, h.1, h.2.1, word_addressBytes]

/-- It gives them only then. -/
theorem SecondLine.addresses {labels labels' : Labels} {line name : Str} {part : List Opcode}
    (h : SecondLine labels line part) (h' : SecondLine labels' line part) (huses : Uses [line] name) :
    labels' name = labels name := by
  obtain ⟨line', hline, mnemonic, args, hwords, hskip, arg, harg, hnames⟩ := huses
  cases List.mem_singleton.mp hline
  cases h with
  | skipped hnone => rw [hwords] at hnone; cases hnone
  | skip hsame => rw [hwords] at hsame; cases hsame; exact absurd rfl hskip
  | @instruction _ _ opcode codes hsame _ _ hcodes =>
    rw [hwords] at hsame
    cases hsame
    generalize hpart : opcode :: codes.flatten = part at h'
    cases h' with
    | skipped hnone => rw [hwords] at hnone; cases hnone
    | skip hsame => rw [hwords] at hsame; cases hsame; exact absurd rfl hskip
    | @instruction _ _ opcode' codes' hsame _ _ hcodes' =>
      rw [hwords] at hsame
      cases hsame
      have heq : codes = codes' := List.eq_iff_flatten_eq.mpr
        ⟨(List.cons.inj hpart).2, (encoded_lengths hcodes).trans (encoded_lengths hcodes').symm⟩
      subst heq
      obtain ⟨k, hk, rfl⟩ := List.mem_iff_getElem.mp harg
      have hcode := hcodes.get hk (hcodes.length_eq ▸ hk)
      have hcode' := hcodes'.get hk (hcodes.length_eq ▸ hk)
      obtain ⟨addr, haddr⟩ := Option.isSome_iff_exists.mp (names_known hnames hcode)
      obtain ⟨addr', haddr'⟩ := Option.isSome_iff_exists.mp (names_known hnames hcode')
      have hbytes := (operandBytes_of_names hnames haddr).symm.trans (hcode.trans
        (hcode'.symm.trans (operandBytes_of_names hnames haddr')))
      rw [haddr, haddr', addressBytes_injective (List.cons.inj (Except.ok.inj hbytes)).2]

/-! ### Raised addresses -/

theorem operandBytes_raised {labels labels' : Labels} {offset : MemAddr} {arg : Str} {code : List Opcode}
    (h : operandBytes labels arg = .ok code)
    (hraise : ∀ name addr, Names arg name → labels name = some addr → labels' name = some (addr + offset)) :
    ∃ a code', readArgument code = some (a, []) ∧ operandBytes labels' arg = .ok code' ∧
      readArgument code' = some (a.raised offset, []) := by
  obtain ⟨a, hread, hmeans⟩ := operandBytes_means h
  by_cases hlabel : operandType arg = .address ∨ operandType arg = .indirectLbl
  · obtain ⟨name, hnames⟩ : ∃ name, Names arg name := by
      rcases hlabel with htype | htype
      · exact ⟨arg, .inl ⟨htype, rfl⟩⟩
      · exact ⟨inside arg, .inr ⟨htype, rfl⟩⟩
    obtain ⟨addr, haddr⟩ := Option.isSome_iff_exists.mp (names_known hnames h)
    have hpayload : (operandType arg).payload = 2 := by
      rcases hlabel with htype | htype <;> rw [htype] <;> rfl
    cases h.symm.trans (operandBytes_of_names hnames haddr)
    rw [addressBytes, readArgument_two _ _ _ hpayload, word_addressBytes] at hread
    cases hread
    refine ⟨_, _, by rw [addressBytes, readArgument_two _ _ _ hpayload, word_addressBytes],
      operandBytes_of_names hnames (hraise name addr hnames haddr), ?_⟩
    rw [addressBytes, readArgument_two _ _ _ hpayload, word_addressBytes, RawArgument.raised, if_pos hlabel]
  · have hnames : ∀ name, ¬ Names arg name := fun name hnames =>
      hlabel (hnames.imp And.left And.left)
    refine ⟨a, code, hread, (operandBytes_congr fun name h => absurd h (hnames name)).trans h, ?_⟩
    rw [RawArgument.raised, hmeans.type, if_neg hlabel, hread]

theorem encoded_raised {labels labels' : Labels} {offset : MemAddr} {args : List Str} {codes : List (List Opcode)}
    (h : Encoded labels args codes) (hraise : ∀ arg ∈ args, ∀ name addr, Names arg name →
      labels name = some addr → labels' name = some (addr + offset)) :
    ∃ operands codes', readArguments args.length codes.flatten = some (operands, []) ∧
      Encoded labels' args codes' ∧
      readArguments args.length codes'.flatten = some (operands.map (·.raised offset), []) := by
  induction h with
  | nil => exact ⟨[], [], rfl, .nil, rfl⟩
  | @cons arg code args codes hcode _ ih =>
    obtain ⟨a, code', hread, hcode', hread'⟩ := operandBytes_raised hcode (hraise arg (List.mem_cons_self ..))
    obtain ⟨operands, codes', hreads, hcodes', hreads'⟩ :=
      ih fun arg' h => hraise arg' (List.mem_cons_of_mem arg h)
    refine ⟨a :: operands, code' :: codes', ?_, .cons hcode' hcodes', ?_⟩
    · have hfirst : readArgument (code ++ codes.flatten) = some (a, codes.flatten) :=
        readArgument_append codes.flatten hread
      rw [List.flatten_cons, List.length_cons]
      simp [readArguments, hfirst, hreads]
    · have hfirst : readArgument (code' ++ codes'.flatten) = some (a.raised offset, codes'.flatten) :=
        readArgument_append codes'.flatten hread'
      rw [List.flatten_cons, List.length_cons]
      simp [readArguments, hfirst, hreads']

/-- Where the labels a line uses are raised, it gives the same instructions, raised. -/
theorem SecondLine.raised {labels labels' : Labels} {offset : MemAddr} {line : Str} {part : List Opcode}
    (h : SecondLine labels line part) (hraise : ∀ name addr, Uses [line] name → labels name = some addr →
      labels' name = some (addr + offset)) :
    ∃ ds part', Decodes part ds ∧ SecondLine labels' line part' ∧
      Decodes part' (ds.map (Decoded.raised offset)) := by
  cases h with
  | skipped hwords => exact ⟨[], [], .nil, .skipped hwords, .nil⟩
  | @skip size n hwords hn =>
    refine ⟨_, _, decodes_replicate n, .skip hwords hn, ?_⟩
    rw [List.map_replicate]
    exact decodes_replicate n
  | @instruction mnemonic args opcode codes hwords hskip hop hcodes =>
    obtain ⟨operands, codes', hread, hcodes', hread'⟩ := encoded_raised hcodes fun arg harg name addr hnames =>
      hraise name addr (uses_operand hwords hskip harg hnames)
    refine ⟨[(opcode, operands)], _, .single ?_, .instruction hwords hskip hop hcodes', .single ?_⟩
    · rw [readInstruction, arity_of_findOpcode hop, hread]
      rfl
    · rw [readInstruction, arity_of_findOpcode hop, hread']
      rfl

theorem parts_raised {labels labels' : Labels} {offset : MemAddr} {lines : List Str} {parts : List (List Opcode)}
    (h : Parts labels lines parts) (hraise : ∀ name addr, Uses lines name → labels name = some addr →
      labels' name = some (addr + offset)) :
    ∃ ds parts', Decodes parts.flatten ds ∧ Parts labels' lines parts' ∧
      Decodes parts'.flatten (ds.map (Decoded.raised offset)) := by
  induction h with
  | nil => exact ⟨[], [], .nil, .nil, .nil⟩
  | @cons line part lines parts hline _ ih =>
    have hhead : ∀ name, Uses [line] name → Uses (line :: lines) name := fun name h => h.mono (by simp)
    have htail : ∀ name, Uses lines name → Uses (line :: lines) name := fun name h =>
      h.mono fun l hl => List.mem_cons_of_mem line hl
    obtain ⟨ds, part', hds, hline', hds'⟩ := hline.raised fun name addr h => hraise name addr (hhead name h)
    obtain ⟨es, parts', hes, hparts', hes'⟩ := ih fun name addr h => hraise name addr (htail name h)
    refine ⟨ds ++ es, part' :: parts', hds.append hes, .cons hline' hparts', ?_⟩
    rw [List.map_append]
    exact hds'.append hes'

theorem parts_congr {labels labels' : Labels} {lines : List Str} {parts : List (List Opcode)}
    (h : Parts labels lines parts) (hsame : ∀ name, Uses lines name → labels' name = labels name) :
    Parts labels' lines parts := by
  have hlines : ∀ line ∈ lines, ∀ name, Uses [line] name → labels' name = labels name :=
    fun line hline name huses => hsame name (huses.mono fun l hl => by rwa [List.mem_singleton.mp hl])
  exact ((List.forall₂_and_left _ _).mpr ⟨hlines, h⟩).imp fun line part hpart => hpart.2.congr hpart.1

/-! ### Two files -/

theorem withStart_congr {labels labels' : Labels} {name : Str} (h : labels' name = labels name) :
    withStart labels' name = withStart labels name := by
  unfold withStart
  by_cases hname : name = startLabel
  · subst hname
    rw [Function.update_self, Function.update_self, h]
  · rw [Function.update_of_ne hname, Function.update_of_ne hname, h]

theorem linked_of_undefined {s t : FirstPass} {name : Str} (h : t.addressesOfLabels name = none) :
    s.linked t name = s.addressesOfLabels name := by
  rw [FirstPass.linked, h]

theorem linked_of_defined {s t : FirstPass} {name : Str} {addr : MemAddr} (h : t.addressesOfLabels name = some addr) :
    s.linked t name = some (addr + s.offset) := by
  rw [FirstPass.linked, h]

theorem firstPass_defines {lines : List Str} {first : FirstPass} (h : firstPass lines = .ok first) (name : Str) :
    (first.addressesOfLabels name).isSome = defines lines name := by
  have hstart : ∀ name, (FirstPass.start.addressesOfLabels name).isSome = defines [] name := fun _ => rfl
  exact firstPass_known h hstart name

/-- Two files without a label in common: those of the first are named like labels, it
uses none of the second, and the second uses `start` only as its own. -/
structure Linkable (a b : List Str) : Prop where
  named : ∀ name, defines a name = true → LikeLabel name
  apart : ∀ name, Uses a name → defines b name = false
  closed : Uses b startLabel → defines b startLabel = true

/-- **Files that are read one after the other are linked.** The code of the first is that
of the file alone; the code of the second is that of the file alone with the addresses of
its labels raised by the bytes counted for the first. The entry point is that of the
first, unless the second has one. -/
theorem linking {a b : Str} {x w : List Opcode} (ha : asmToOpcodes a = .ok x) (hb : asmToOpcodes b = .ok w)
    (hl : Linkable (getlines a) (getlines b)) :
    ∃ fa fb ds z, firstPass (getlines a) = .ok fa ∧ firstPass (getlines b) = .ok fb ∧
      asmToOpcodes (asmFileToCode b (asmFileToCode a [])) = .ok (header (fa.linked fb) ++ (x.drop 2 ++ z)) ∧
      Decodes (w.drop 2) ds ∧ Decodes z (ds.map (Decoded.raised fa.offset)) ∧
      (defines (getlines b) startLabel = false → header (fa.linked fb) = x.take 2) := by
  obtain ⟨fa, parts, hfa, hparts, rfl⟩ := asmToOpcodes_iff.mp ha
  obtain ⟨fb, others, hfb, hothers, rfl⟩ := asmToOpcodes_iff.mp hb
  have hnone : ∀ name, defines (getlines b) name = false → fb.addressesOfLabels name = none := fun name hname => by
    rwa [← firstPass_defines hfb, Option.isSome_eq_false_iff, Option.isNone_iff_eq_none] at hname
  obtain ⟨f, hf, hbehind⟩ := firstPass_behind (s := fa)
    (fun name h => hl.named name (by rwa [← firstPass_defines hfa])) hfb
  have hjoined : firstPass (getlines a ++ getlines b) = .ok f := foldlM_append_eq_ok.mpr ⟨fa, hfa, hf⟩
  -- the first file finds its labels where it has put them
  have hkept : Parts (withStart f.addressesOfLabels) (getlines a) parts := by
    refine parts_congr hparts fun name huses => withStart_congr ?_
    rw [hbehind.labels, linked_of_undefined (hnone name (hl.apart name huses))]
  -- the second finds them raised
  have hraise : ∀ name addr, Uses (getlines b) name → withStart fb.addressesOfLabels name = some addr →
      withStart f.addressesOfLabels name = some (addr + fa.offset) := by
    intro name addr huses haddr
    have hdefined : (fb.addressesOfLabels name).isSome = true := by
      rcases (withStart_isSome _ name).mp (by rw [haddr]; rfl) with rfl | hsome
      · rw [firstPass_defines hfb]
        exact hl.closed huses
      · exact hsome
    obtain ⟨addr', haddr'⟩ := Option.isSome_iff_exists.mp hdefined
    cases haddr.symm.trans (withStart_of_some haddr')
    exact withStart_of_some (by rw [hbehind.labels, linked_of_defined haddr'])
  obtain ⟨ds, raised, hds, hraised, hds'⟩ := parts_raised hothers hraise
  refine ⟨fa, fb, ds, raised.flatten, hfa, hfb, ?_, hds, hds', fun hstart => ?_⟩
  · rw [asmToOpcodes_iff, getlines_joined]
    exact ⟨f, parts ++ raised, hjoined, List.rel_append hkept hraised, by
      rw [hbehind.labels, List.flatten_append]
      rfl⟩
  · show header _ = header fa.addressesOfLabels
    rw [header, header, linked_of_undefined (hnone _ hstart)]

/-- A jump over nothing, and a jump to itself behind it. -/
def jumpOver : Str := "JMP end\nend:".toList

def jumpAgain : Str := "go:\nJMP go".toList

theorem linkable_over : Linkable (getlines jumpOver) (getlines jumpAgain) := by
  have hover : getlines jumpOver = ["JMP end".toList, "end:".toList] := by decide
  have hagain : getlines jumpAgain = ["go:".toList, "JMP go".toList] := by decide
  have hlabels : labelOf "JMP end".toList = none ∧ labelOf "end:".toList = some "end".toList := by decide +kernel
  have hlines : instructionOf "end:".toList = [] ∧ instructionOf "go:".toList = [] ∧
      instructionOf "JMP end".toList = ["JMP".toList, "end".toList] ∧
      instructionOf "JMP go".toList = ["JMP".toList, "go".toList] := by decide +kernel
  have htypes : operandType "end".toList = .address ∧ operandType "go".toList = .address := by decide +kernel
  have hname : ∀ {arg name : Str}, operandType arg = .address → Names arg name → name = arg := by
    rintro arg name htype (⟨-, rfl⟩ | ⟨hother, -⟩)
    · rfl
    · rw [htype] at hother
      cases hother
  refine ⟨fun name h => ?_, ?_, ?_⟩
  · simp only [hover, defines, List.any_cons, List.any_nil, hlabels, Bool.or_false] at h
    cases beq_iff_eq.mp h
    rfl
  · rintro name ⟨line, hline, mnemonic, args, hwords, -, arg, harg, hnames⟩
    rw [hover, List.mem_cons, List.mem_singleton] at hline
    rcases hline with rfl | rfl
    · rw [hlines.2.2.1] at hwords
      cases hwords
      cases List.mem_singleton.mp harg
      cases hname htypes.1 hnames
      decide +kernel
    · rw [hlines.1] at hwords
      cases hwords
  · rintro ⟨line, hline, mnemonic, args, hwords, -, arg, harg, hnames⟩
    rw [hagain, List.mem_cons, List.mem_singleton] at hline
    rcases hline with rfl | rfl
    · rw [hlines.2.1] at hwords
      cases hwords
    · rw [hlines.2.2.2] at hwords
      cases hwords
      cases List.mem_singleton.mp harg
      exact absurd (hname htypes.2 hnames) (by decide)

theorem linking_over : ∃ fa fb ds z, firstPass (getlines jumpOver) = .ok fa ∧ firstPass (getlines jumpAgain) = .ok fb ∧
    asmToOpcodes (asmFileToCode jumpAgain (asmFileToCode jumpOver [])) =
      .ok (header (fa.linked fb) ++ (([0, 2, 0x31, 2, 0, 6] : List Opcode).drop 2 ++ z)) ∧
    Decodes (([0, 2, 0x31, 2, 0, 2] : List Opcode).drop 2) ds ∧ Decodes z (ds.map (Decoded.raised fa.offset)) ∧
    (defines (getlines jumpAgain) startLabel = false → header (fa.linked fb) = [0, 2, 0x31, 2, 0, 6].take 2) :=
  linking (by decide +kernel) (by decide +kernel) linkable_over

/-- **The image of a file stays the beginning of the image exactly when nothing read behind
it gives another entry point, or another address to a label it uses.** -/
theorem code_kept_iff {a b : Str} {x y : List Opcode} {first joined : FirstPass}
    (ha : asmToOpcodes a = .ok x) (hfirst : firstPass (getlines a) = .ok first)
    (hb : asmToOpcodes (asmFileToCode b (asmFileToCode a [])) = .ok y)
    (hjoined : firstPass (getlines a ++ getlines b) = .ok joined) :
    x <+: y ↔ header joined.addressesOfLabels = header first.addressesOfLabels ∧
      ∀ name, Uses (getlines a) name →
        withStart joined.addressesOfLabels name = withStart first.addressesOfLabels name := by
  obtain ⟨_, parts, hfirst', hparts, rfl⟩ := asmToOpcodes_iff.mp ha
  cases hfirst.symm.trans hfirst'
  obtain ⟨_, parts', hjoined', hparts', rfl⟩ := asmToOpcodes_iff.mp hb
  rw [getlines_joined] at hjoined' hparts'
  cases hjoined.symm.trans hjoined'
  obtain ⟨p, others, rfl, hp, -⟩ := forall₂_append_left hparts'
  rw [List.flatten_append]
  have hlengths : parts.map List.length = p.map List.length := (parts_lengths hparts).trans (parts_lengths hp).symm
  constructor
  · rintro ⟨rest, hrest⟩
    rw [List.append_assoc] at hrest
    obtain ⟨hheader, hcode⟩ := List.append_inj hrest rfl
    have hlength : parts.flatten.length = p.flatten.length := by
      rw [List.length_flatten, List.length_flatten, hlengths]
    cases List.eq_iff_flatten_eq.mpr ⟨(List.append_inj hcode hlength).1, hlengths⟩
    refine ⟨hheader.symm, fun name ⟨line, hline, hrest⟩ => ?_⟩
    obtain ⟨k, hk, rfl⟩ := List.mem_iff_getElem.mp hline
    have hk' : k < parts.length := hparts.length_eq ▸ hk
    exact (hparts.get hk hk').addresses (hp.get hk hk') ⟨_, List.mem_singleton.mpr rfl, hrest⟩
  · rintro ⟨hheader, hsame⟩
    rw [hheader, parts_unique (parts_congr hparts hsame) hp, ← List.append_assoc]
    exact List.prefix_append _ _

theorem code_kept_iff_over : ∃ first joined, firstPass (getlines jumpOver) = .ok first ∧
    firstPass (getlines jumpOver ++ getlines jumpAgain) = .ok joined ∧
    (([0, 2, 0x31, 2, 0, 6] : List Opcode) <+: [0, 2, 0x31, 2, 0, 6, 0x31, 2, 0, 6] ↔
      header joined.addressesOfLabels = header first.addressesOfLabels ∧
        ∀ name, Uses (getlines jumpOver) name →
          withStart joined.addressesOfLabels name = withStart first.addressesOfLabels name) := by
  have hover : asmToOpcodes jumpOver = .ok [0, 2, 0x31, 2, 0, 6] := by decide +kernel
  have hboth : asmToOpcodes (asmFileToCode jumpAgain (asmFileToCode jumpOver [])) =
      .ok [0, 2, 0x31, 2, 0, 6, 0x31, 2, 0, 6] := by decide +kernel
  obtain ⟨first, _, hfirst, -⟩ := asmToOpcodes_iff.mp hover
  obtain ⟨joined, _, hjoined, -⟩ := asmToOpcodes_iff.mp hboth
  rw [getlines_joined] at hjoined
  exact ⟨first, joined, hfirst, hjoined, code_kept_iff hover hfirst hboth hjoined⟩

end Assembler
end CustomIsaVm
