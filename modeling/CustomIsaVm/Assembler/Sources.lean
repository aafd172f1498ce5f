import CustomIsaVm.Assembler.Linking
import CustomIsaVm.Machine.Checked

/-! Sources that cannot go wrong.

What makes a checked image can be asked of the source: its first lines reserve data and
hold no instruction, at least 256 bytes with the header; the operands of the others are
registers, data, numbers, and, of jumps, labels among these others; `start` is one of
them; and both passes count the same bytes for every line. `source_safe` is that the
assembler turns such a source into an image that keeps what it asks for, and what that
means for every run. -/
namespace CustomIsaVm
open Exec

/-! ### Roles of operands -/

/-- What an instruction does with an operand: it assigns it, it reads it, or it jumps to it. -/
inductive Role where
  | data
  | source
  | target
  deriving DecidableEq, Repr

/-- The operands of the instructions that can be checked. -/
def rolesOf (opcode : Opcode) : Option (List Role) :=
  match opcode.toNat with
  | 0x00 | 0x10 | 0xFF => some []
  | 0x12 | 0x32 | 0x52 | 0x72 | 0x92 => some [.data, .source]
  | 0xB2 => some [.source, .source]
  | 0x01 | 0x81 => some [.source]
  | 0x21 | 0x91 => some [.data]
  | 0x31 | 0x41 | 0x51 | 0x61 | 0x71 => some [.target]
  | _ => none

/-- The operand is fit for its role. -/
def Fits (data : Nat) (ds : List Decoded) : Role → RawArgument → Prop
  | .data => DataOperand data
  | .source => SourceOperand data
  | .target => TargetOperand data ds

theorem wellSorted_of_roles {data : Nat} {ds : List Decoded} {opcode : Opcode} {roles : List Role}
    {operands : List RawArgument} (hroles : rolesOf opcode = some roles)
    (h : List.Forall₂ (Fits data ds) roles operands) :
    WellSorted data ds (Decoded.instruction (opcode, operands)) := by
  unfold rolesOf at hroles
  split at hroles <;> cases hroles <;> rename_i hop <;> simp only [Decoded.instruction, hop]
  all_goals
    first
    | trivial
    | obtain ⟨a, _, ha, hnil, rfl⟩ := List.forall₂_cons_left_iff.mp h
      cases hnil
      exact ha
    | obtain ⟨a, _, ha, hrest, rfl⟩ := List.forall₂_cons_left_iff.mp h
      obtain ⟨b, _, hb, hnil, rfl⟩ := List.forall₂_cons_left_iff.mp hrest
      cases hnil
      exact ⟨ha, hb⟩

namespace Assembler
open Text Fold

/-! ### What is asked of a source -/

/-- Where the bytes of the next line stand, behind these lines. -/
def extent (lines : List Str) : Nat := 2 + (lines.map fun line => emittedSize (instructionOf line)).sum

/-- The place of the last label `name` of the lines that begin at `o`. -/
def placed (name : Str) : Nat → List Str → Option Nat
  | _, [] => none
  | o, line :: lines => (placed name (o + emittedSize (instructionOf line)) lines).or
      (if labelOf line = some name then some o else none)

/-- Both passes count the same for each of the lines below `above`. -/
def driftless (above : List Str) : List Str → Bool
  | [] => true
  | line :: lines => drift above line == 0 && driftless (above ++ [line]) lines

/-- An operand word that denotes a register or data. -/
def DataWord (data : Nat) (lines : List Str) (arg : Str) : Prop :=
  match operandType arg with
  | .register | .indirectReg => True
  | .address => ∃ k ∈ placed arg 2 lines, k < data
  | .indirectMem => IsDecimal (inside arg) ∧ arg = '[' :: inside arg ++ [']'] ∧ number (inside arg) < data
  | .indirectLbl | .number | .number16 | .other _ => False

/-- The word is fit for its role. -/
def FitWord (data : Nat) (lines : List Str) (role : Role) (arg : Str) : Prop :=
  match role with
  | .data => DataWord data lines arg
  | .source => operandType arg = .number ∨ DataWord data lines arg
  | .target => operandType arg = .address ∧ ∃ k ∈ placed arg 2 lines, data ≤ k

/-- The words of a line: none, a `.skip`, or an instruction with operands fit for it. -/
def SortedWords (data : Nat) (lines : List Str) : List Str → Prop
  | [] => True
  | mnemonic :: args => mnemonic = skipDirective ∨
      ∃ opcode roles, findOpcode mnemonic args.length = some opcode ∧ rolesOf opcode = some roles ∧
        List.Forall₂ (FitWord data lines) roles args

structure WellSortedSource (front body : List Str) : Prop where
  registers : 256 ≤ extent front
  code : ∀ line ∈ body, SortedWords (extent front) (front ++ body) (instructionOf line)
  entry : ∃ k ∈ placed startLabel 2 (front ++ body), extent front ≤ k
  counted : driftless [] (front ++ body) = true

/-! ### Places of labels -/

theorem extent_append (a b : List Str) :
    extent (a ++ b) = extent a + (b.map fun line => emittedSize (instructionOf line)).sum := by
  rw [extent, extent, List.map_append, List.sum_append, Nat.add_assoc]

theorem placed_none {name : Str} {lines : List Str} {o : Nat} (h : placed name o lines = none) :
    ∀ line ∈ lines, labelOf line ≠ some name := by
  induction lines generalizing o with
  | nil => simp
  | cons line lines ih =>
    rw [placed, Option.or_eq_none_iff] at h
    intro l hl
    rcases List.mem_cons.mp hl with rfl | hl
    · intro hname
      rw [if_pos hname] at h
      cases h.2
    · exact ih h.1 l hl

theorem placed_some {name : Str} {lines : List Str} {o k : Nat} (h : placed name o lines = some k) :
    ∃ above, BeforeLabel lines name above ∧
      k = o + (above.map fun line => emittedSize (instructionOf line)).sum := by
  induction lines generalizing o with
  | nil => cases h
  | cons line lines ih =>
    rw [placed] at h
    cases hrest : placed name (o + emittedSize (instructionOf line)) lines with
    | some k' =>
      rw [hrest, Option.some_or] at h
      cases h
      obtain ⟨above, ⟨l, below, rfl, hlabel, hlast⟩, hk⟩ := ih hrest
      refine ⟨line :: above, ⟨l, below, rfl, hlabel, hlast⟩, ?_⟩
      rw [hk, List.map_cons, List.sum_cons, Nat.add_assoc]
    | none =>
      rw [hrest, Option.none_or] at h
      split at h
      next hname =>
        cases h
        exact ⟨[], ⟨line, lines, rfl, hname, placed_none hrest⟩, rfl⟩
      next => cases h

theorem driftFrom_driftless {above lines : List Str} (h : driftless above lines = true) :
    driftFrom above lines = 0 := by
  induction lines generalizing above with
  | nil => rfl
  | cons line lines ih =>
    rw [driftless, Bool.and_eq_true, beq_iff_eq] at h
    rw [driftFrom, h.1, ih h.2]
    rfl

theorem driftless_left {above a b : List Str} (h : driftless above (a ++ b) = true) : driftless above a = true := by
  induction a generalizing above with
  | nil => rfl
  | cons line a ih =>
    rw [List.cons_append, driftless, Bool.and_eq_true] at h
    rw [driftless, Bool.and_eq_true]
    exact ⟨h.1, ih h.2⟩

theorem parts_extent {labels : Labels} {lines : List Str} {parts : List (List Opcode)}
    (h : Parts labels lines parts) : 2 + parts.flatten.length = extent lines := by
  rw [List.length_flatten, parts_lengths h, extent]

/-- A label has the address of its place. -/
theorem placed_address {lines : List Str} {name : Str} {first : FirstPass} {parts : List (List Opcode)} {k : Nat}
    (hfirst : firstPass lines = .ok first) (hparts : Parts (withStart first.addressesOfLabels) lines parts)
    (hdrift : driftless [] lines = true) (hlen : extent lines < 65536) (hk : placed name 2 lines = some k) :
    ∃ addr above, first.addressesOfLabels name = some addr ∧ addr.toNat = k ∧ k = extent above ∧
      above <+: lines := by
  obtain ⟨above, hlabel, rfl⟩ := placed_some hk
  obtain ⟨second, hsecond, -⟩ := (secondPass_iff (s := ⟨1, header first.addressesOfLabels⟩)).mpr
    ⟨parts, hparts, rfl⟩
  obtain ⟨s, t, hs, ht, hrecorded, -, -⟩ := label_reached hlabel hfirst hsecond
  obtain ⟨line, below, rfl, -, -⟩ := hlabel
  obtain ⟨parts', hparts', hcodes⟩ := secondPass_iff.mp ⟨t, ht, rfl⟩
  have hextent : t.codes.length = extent above := by
    rw [hcodes, List.length_append, ← parts_extent hparts']
    rfl
  have hle : extent above ≤ extent (above ++ line :: below) := by
    rw [extent_append]
    exact Nat.le_add_right _ _
  have hzero : totalDrift above = 0 := driftFrom_driftless (driftless_left hdrift)
  have haddr := (recorded_iff (passes_apart hs ht) (by omega)).mpr (by rw [hzero]; exact Int.dvd_zero _)
  exact ⟨_, above, hrecorded, haddr.trans hextent, rfl, List.prefix_append _ _⟩

/-! ### The image of a source -/

theorem parts_decode {labels : Labels} {lines : List Str} {parts : List (List Opcode)}
    (h : Parts labels lines parts) :
    ∃ dss, List.Forall₂ (LineMeans labels) lines dss ∧ List.Forall₂ Decodes parts dss := by
  induction h with
  | nil => exact ⟨[], .nil, .nil⟩
  | cons hline _ ih =>
    obtain ⟨ds, hmeans, hds⟩ := secondLine_decodes hline
    obtain ⟨dss, hall, hdss⟩ := ih
    exact ⟨ds :: dss, .cons hmeans hall, .cons hds hdss⟩

theorem decodes_flatten {parts : List (List MemCell)} {dss : List (List Decoded)}
    (h : List.Forall₂ Decodes parts dss) : Decodes parts.flatten dss.flatten := by
  induction h with
  | nil => exact .nil
  | cons hds _ ih => exact hds.append ih

/-- Behind decoded bytes the next instruction starts. -/
theorem mem_starts {bytes : List MemCell} {ds : List Decoded} (h : Decodes bytes ds) (o : Nat) (more : List Decoded) :
    o + bytes.length ∈ starts o (ds ++ more) := by
  induction h generalizing o with
  | nil => cases more <;> exact List.mem_cons_self ..
  | @cons bytes rest d ds hd _ ih =>
    have hnext := ih (o + (1 + encodedSize d.2))
    rw [readInstruction_length hd, ← Nat.add_assoc]
    exact List.mem_cons_of_mem _ hnext

theorem register_bounds {name : Str} {r : UInt8} (h : findRegister name = some r) :
    1 ≤ r.toUInt16.toNat ∧ r.toUInt16.toNat ≤ 5 := by
  have htable : ∀ e ∈ regmap, 1 ≤ e.2.toUInt16.toNat ∧ e.2.toUInt16.toNat ≤ 5 := by decide
  exact htable _ (mem_of_lookup h)

section
variable {data : Nat} {lines : List Str} {labels : Labels} {ds : List Decoded} {arg : Str} {a : RawArgument}
  (haddress : ∀ name k, placed name 2 lines = some k → ∃ addr, labels name = some addr ∧ addr.toNat = k)
include haddress

/-- A data word is encoded as a data operand. -/
theorem DataWord.operand (hdata : data < 65536) (hw : DataWord data lines arg) (hm : OperandMeans labels arg a) :
    DataOperand data a := by
  unfold DataWord at hw
  unfold DataOperand
  rw [hm.type]
  cases htype : operandType arg with
  | register =>
    obtain ⟨r, hr, hvalue⟩ := hm.register htype
    rw [hvalue]
    exact register_bounds hr
  | indirectReg =>
    obtain ⟨r, hr, hvalue⟩ := hm.indirectReg htype
    rw [hvalue]
    exact register_bounds hr
  | address =>
    rw [htype] at hw
    obtain ⟨k, hk, hlt⟩ := hw
    obtain ⟨addr, haddr, rfl⟩ := haddress arg k hk
    rw [hm.address htype] at haddr
    cases haddr
    exact hlt
  | indirectMem =>
    rw [htype] at hw
    obtain ⟨hdecimal, harg, hlt⟩ := hw
    rw [hm.indirectMem _ hdecimal harg (by omega)]
    exact hlt
  | indirectLbl | number | number16 | other =>
    rw [htype] at hw
    exact hw

theorem FitWord.fits {role : Role} (hdata : data < 65536)
    (hstarts : ∀ name k, placed name 2 lines = some k → data ≤ k → k ∈ starts data ds)
    (hw : FitWord data lines role arg) (hm : OperandMeans labels arg a) : Fits data ds role a := by
  cases role with
  | data => exact DataWord.operand haddress hdata hw hm
  | source =>
    rcases hw with hnumber | hw
    · exact .inl (hm.type.trans hnumber)
    · exact .inr (DataWord.operand haddress hdata hw hm)
  | target =>
    obtain ⟨htype, k, hk, hle⟩ := hw
    obtain ⟨addr, haddr, rfl⟩ := haddress arg k hk
    rw [hm.address htype] at haddr
    cases haddr
    exact ⟨hm.type.trans htype, hstarts arg _ hk hle⟩

/-- The instructions of a sorted line are well sorted. -/
theorem SortedWords.wellSorted {line : Str} {es : List Decoded} (hdata : data < 65536)
    (hstarts : ∀ name k, placed name 2 lines = some k → data ≤ k → k ∈ starts data ds)
    (hw : SortedWords data lines (instructionOf line)) (hm : LineMeans labels line es) :
    ∀ e ∈ es, WellSorted data ds e.instruction := by
  intro e he
  cases hm with
  | skipped => cases he
  | skip =>
    rw [List.eq_of_mem_replicate he]
    trivial
  | @instruction mnemonic args opcode operands hwords hskip hop hoperands =>
    cases List.mem_singleton.mp he
    rw [hwords] at hw
    rcases hw with hsame | ⟨opcode', roles, hop', hroles, hfit⟩
    · exact absurd hsame hskip
    · cases hop.symm.trans hop'
      refine wellSorted_of_roles hroles ?_
      clear hwords hop hop' hroles he
      induction hfit generalizing operands with
      | nil =>
        cases hoperands
        exact .nil
      | cons hword _ ih =>
        cases hoperands with
        | cons hmeans hrest => exact .cons (hword.fits haddress hdata hstarts hmeans) (ih hrest)

end

/-- **A well sorted source is assembled into a checked image.** -/
theorem WellSortedSource.checked {code : Str} {front body : List Str} {bytes : List Opcode}
    (hs : WellSortedSource front body) (hlines : getlines code = front ++ body)
    (h : asmToOpcodes code = .ok bytes) (hlen : bytes.length < 65536) :
    ∃ ds, Checked (extent front) bytes ds := by
  obtain ⟨first, parts, hfirst, hparts, rfl⟩ := asmToOpcodes_iff.mp h
  rw [hlines] at hfirst hparts
  have hextent := parts_extent hparts
  have hall : extent (front ++ body) < 65536 := by
    rw [List.length_append, show (header first.addressesOfLabels).length = 2 from rfl] at hlen
    omega
  have hdata : extent front < 65536 := by
    rw [extent_append] at hall
    omega
  obtain ⟨pf, pb, rfl, hpf, hpb⟩ := forall₂_append_left hparts
  have hfront := parts_extent hpf
  obtain ⟨dss, hmeans, hdss⟩ := parts_decode hpb
  have haddress : ∀ name k, placed name 2 (front ++ body) = some k →
      ∃ addr, withStart first.addressesOfLabels name = some addr ∧ addr.toNat = k := fun name k hk => by
    obtain ⟨addr, -, haddr, heq, -⟩ := placed_address hfirst hparts hs.counted hall hk
    exact ⟨addr, withStart_of_some haddr, heq⟩
  -- a label behind the data stands before a line of the code
  have hstarts : ∀ name k, placed name 2 (front ++ body) = some k → extent front ≤ k →
      k ∈ starts (extent front) dss.flatten := by
    intro name k hk hle
    obtain ⟨-, above, -, -, rfl, habove⟩ := placed_address hfirst hparts hs.counted hall hk
    rcases List.prefix_or_prefix_of_prefix habove (List.prefix_append front body) with hfew | ⟨lines, rfl⟩
    · obtain ⟨rest, rfl⟩ := hfew
      have heq : extent above = extent (above ++ rest) + ([] : List MemCell).length := by
        rw [extent_append] at hle ⊢
        simp only [List.length_nil]
        omega
      rw [heq]
      exact mem_starts .nil _ _
    · obtain ⟨below, rfl⟩ := (List.prefix_append_right_inj front).mp habove
      obtain ⟨pl, pr, rfl, hpl, -⟩ := forall₂_append_left hpb
      obtain ⟨dl, dr, rfl, hdl, -⟩ := forall₂_append_left hdss
      have hlength : extent (front ++ lines) = extent front + pl.flatten.length := by
        rw [extent_append, List.length_flatten, parts_lengths hpl]
      rw [hlength, List.flatten_append]
      exact mem_starts (decodes_flatten hdl) _ _
  refine ⟨dss.flatten, ⟨hs.registers, ?_, ?_, ?_⟩, ?_⟩
  · rw [List.flatten_append, List.length_append, List.length_append, ← hfront]
    exact Nat.add_le_add_left (Nat.le_add_right _ _) 2
  · rw [List.flatten_append, ← List.append_assoc, List.drop_left' (by rw [List.length_append, ← hfront]; rfl)]
    exact decodes_flatten hdss
  · obtain ⟨k, hk, hle⟩ := hs.entry
    obtain ⟨addr, -, haddr, rfl, -⟩ := placed_address hfirst hparts hs.counted hall hk
    have hpos : 0 < addr.toNat := by
      have := hs.registers
      omega
    refine ⟨_, _, _, by rw [header_of_some haddr hpos]; rfl, ?_⟩
    rw [word_addressBytes]
    exact hstarts _ _ hk hle
  · intro d hd
    obtain ⟨es, hes, hmem⟩ := List.mem_flatten.mp hd
    obtain ⟨k, hk, rfl⟩ := List.mem_iff_getElem.mp hes
    have hk' : k < body.length := hmeans.length_eq ▸ hk
    exact (hs.code _ (List.getElem_mem hk')).wellSorted haddress hdata hstarts (hmeans.get hk' hk) d hmem

/-- **A well sorted source does not go wrong.** In every session, from every base, with
every input and in either mode: after every number of turns of its image PC is at one of
the instructions its lines stand for or at their end, the code is as it was loaded, SP is
in its window, nothing but the own segment and the GUI flag was touched, and the next turn
completes unless the program ends, divides by zero, or overflows or underflows its stack. -/
theorem source_safe {code : Str} {front body : List Str} {image : List Opcode}
    (hlines : getlines code = front ++ body) (hsource : WellSortedSource front body)
    (hasm : asmToOpcodes code = .ok image) {vm vm' : VM} {procs : List Process} {p : Process}
    (hs : Session vm procs) (hload : vm.load image = .ok (p, vm'))
    (cin : Stdin) {handle : Window} (hhandle : handle ≠ .uninitialised) (events : List WindowEvent) :
    ∃ ds, Decodes (image.drop (extent front)) ds ∧
      ∀ m, Machine.system.Reaches (.boot vm' p cin handle events) m →
        OnTrack (extent front) image ds m ∧ CustomIsaVm.Clean m ∧
          ((∃ m', m.next = .ok m') ∨ ∃ e, m.next = .error e ∧ e.Proper) := by
  have hfits := (hs.load_loaded hload).1.fits
  have hflag : guiFlag = 59903 := rfl
  obtain ⟨ds, hc⟩ := hsource.checked hlines hasm (by omega)
  refine ⟨ds, hc.code, fun m hrun => ?_⟩
  have hstart := onTrack_boot hs hload hc.toSectioned cin hhandle events
  obtain ⟨hon, hclean⟩ := onTrack_run hstart hc (fun a ha => by cases ha) hrun
  exact ⟨hon, hclean, hon.ends_well hc⟩

def storeSevenSource : Str := ".skip 254\nstart:\nMOV [A], 7\nHALT".toList

theorem storeSeven_sorted : WellSortedSource [".skip 254".toList]
    ["start:".toList, "MOV [A], 7".toList, "HALT".toList] where
  registers := by decide +kernel
  entry := ⟨256, by decide +kernel, by decide +kernel⟩
  counted := by decide +kernel
  code := by
    have hlines : instructionOf "start:".toList = [] ∧
        instructionOf "MOV [A], 7".toList = ["MOV".toList, "[A]".toList, "7".toList] ∧
        instructionOf "HALT".toList = ["HALT".toList] := by decide +kernel
    have htypes : operandType "[A]".toList = .indirectReg ∧ operandType "7".toList = .number := by decide +kernel
    intro line hline
    simp only [List.mem_cons, List.not_mem_nil, or_false] at hline
    rcases hline with rfl | rfl | rfl
    · rw [hlines.1]
      trivial
    · rw [hlines.2.1]
      refine .inr ⟨0x12, [.data, .source], by decide, rfl, .cons ?_ (.cons (.inl htypes.2) .nil)⟩
      rw [FitWord, DataWord, htypes.1]
      trivial
    · rw [hlines.2.2]
      exact .inr ⟨0xFF, [], by decide, rfl, .nil⟩

theorem source_safe_seven : ∃ ds, Decodes (storeSeven.drop (extent [".skip 254".toList])) ds ∧
    ∀ m, Machine.system.Reaches (.boot (freshVM storeSeven) (freshProcess storeSeven) ⟨[], false⟩ .null []) m →
      OnTrack (extent [".skip 254".toList]) storeSeven ds m ∧ CustomIsaVm.Clean m ∧
        ((∃ m', m.next = .ok m') ∨ ∃ e, m.next = .error e ∧ e.Proper) := by
  have hasm : asmToOpcodes storeSevenSource = .ok storeSeven := by decide +kernel
  exact source_safe (by decide +kernel) storeSeven_sorted hasm .fresh storeSeven_loads ⟨[], false⟩ (by decide) []

end Assembler
end CustomIsaVm
