import CustomIsaVm.Assembler.Passes

/-! The line an error names.

Both passes count lines for the report of an unknown mnemonic, and both leave lines out:
the first goes on to the next line at a blank or comment line before it counts it, the
second at these and at labels. `reported_line` says which line stands behind the number
of a report, and when it is that line's number. -/
namespace CustomIsaVm.Assembler
open Text Fold

/-- The first pass counts the line: there is a word in it. -/
def counted (line : Str) : Bool := words (cutComment line) ≠ []

/-- The second pass counts the line: it emits something for it. -/
def emitting (line : Str) : Bool := instructionOf line ≠ []

/-- `n` counts the lines above that `counts` does not leave out, and this line. -/
structure Numbered (counts : Str → Bool) (above : List Str) (n : Nat) : Prop where
  number : n = above.countP counts + 1
  exact_iff : n = above.length + 1 ↔ ∀ line ∈ above, counts line = true

theorem numbered_of_countP {counts : Str → Bool} {above : List Str} {n : Nat} (h : n = above.countP counts + 1) :
    Numbered counts above n :=
  ⟨h, by rw [h, Nat.add_right_cancel_iff, List.countP_eq_length]⟩

/-! ### The first pass -/

theorem firstPass_number {lines : List Str} {s : FirstPass} (h : firstPass lines = .ok s) :
    s.lineNumber = lines.countP counted + 1 := by
  refine foldlM_along (I := fun above (s : FirstPass) => s.lineNumber = above.countP counted + 1) []
    (fun above s line t hs ht => ?_) h rfl
  have hcounted : ∀ {w : Str} {ws : List Str}, words (cutComment line) = w :: ws → counted line = true :=
    fun hwords => by simp [counted, hwords]
  rw [List.countP_append, List.countP_singleton]
  cases firstPassLine_eq_ok ht with
  | blank hwords => simp [counted, hwords, hs]
  | label hlabel =>
    have hline : counted line = true := by
      cases hwords : words (cutComment line) with
      | nil => rw [labelOf, hwords] at hlabel; cases hlabel
      | cons w ws => exact hcounted hwords
    rw [hline, FirstPass.define, hs]
    rfl
  | skip _ hwords =>
    rw [hcounted hwords, FirstPass.count, hs]
    rfl
  | instruction _ hwords =>
    rw [hcounted hwords, FirstPass.count, hs]
    rfl

theorem parsed_ne {α : Type} {x : Except ParseError α} {n : Nat} {tok : Str} :
    parsed x ≠ .error (.unknownMnemonic n tok) := by
  cases x with
  | ok v => exact fun h => by cases h
  | error e => exact fun h => by cases h

theorem firstPassType_ne {labels : Labels} {arg : Str} {n : Nat} {tok : Str} :
    firstPassType labels arg ≠ .error (.unknownMnemonic n tok) := by
  unfold firstPassType
  grind

theorem firstPassLine_unknown {s : FirstPass} {line tok : Str} {n : Nat}
    (h : firstPassLine s line = .error (.unknownMnemonic n tok)) :
    n = s.lineNumber ∧ (words (cutComment line)).head? = some tok := by
  unfold firstPassLine at h
  split at h
  next => cases h
  next firstTok args hwords =>
    split at h
    next => cases h
    next =>
      split at h
      next =>
        split at h
        next => cases h
        next =>
          rcases bind_eq_error.mp h with h | ⟨v, -, h⟩
          · exact absurd h parsed_ne
          · cases h
      next =>
        rcases bind_eq_error.mp h with h | ⟨types, -, h⟩
        · obtain ⟨arg, -, h⟩ := mapM_eq_error h
          exact absurd h firstPassType_ne
        · split at h
          next => cases h
          next =>
            cases h
            exact ⟨rfl, by rw [hwords]; rfl⟩

/-! ### The second pass -/

theorem secondPassLine_number {labels : Labels} {s s' : SecondPass} {line : Str}
    (h : secondPassLine labels s line = .ok s') :
    s'.lineNumber = s.lineNumber + if emitting line = true then 1 else 0 := by
  unfold secondPassLine at h
  split at h
  next hwords =>
    cases h
    simp [emitting, hwords]
  next mnemonic args hwords =>
    have hline : emitting line = true := by simp [emitting, hwords]
    rw [if_pos hline]
    split at h
    next =>
      split at h
      next =>
        obtain ⟨n, -, h⟩ := bind_eq_ok.mp h
        cases h
        rfl
      next => cases h
    next =>
      obtain ⟨part, -, h⟩ := bind_eq_ok.mp h
      cases h
      rfl

theorem secondPass_number {labels : Labels} {lines : List Str} {s : SecondPass}
    (h : secondPass labels lines = .ok s) : s.lineNumber = lines.countP emitting + 1 := by
  refine foldlM_along (I := fun above (s : SecondPass) => s.lineNumber = above.countP emitting + 1) []
    (fun above s line t hs ht => ?_) h rfl
  rw [secondPassLine_number ht, hs, List.countP_append, List.countP_singleton]
  omega

theorem operandBytes_ne {labels : Labels} {arg : Str} {n : Nat} {tok : Str} :
    operandBytes labels arg ≠ .error (.unknownMnemonic n tok) := by
  have hlookup : ∀ name, payloadBytes.lookup labels name ≠ .error (.unknownMnemonic n tok) := fun name => by
    unfold payloadBytes.lookup
    split <;> exact fun h => by cases h
  have hregister : ∀ name, payloadBytes.register name ≠ .error (.unknownMnemonic n tok) := fun name => by
    unfold payloadBytes.register
    split <;> exact fun h => by cases h
  intro h
  rcases bind_eq_error.mp h with h | ⟨payload, -, h⟩
  · unfold payloadBytes at h
    split at h
    · exact hlookup _ h
    · exact hlookup _ h
    · rcases bind_eq_error.mp h with h | ⟨v, -, h⟩
      · exact parsed_ne h
      · cases h
    · exact hregister _ h
    · exact hregister _ h
    · rcases bind_eq_error.mp h with h | ⟨v, -, h⟩
      · exact parsed_ne h
      · cases h
    · rcases bind_eq_error.mp h with h | ⟨v, -, h⟩
      · exact parsed_ne h
      · cases h
    · cases h
  · cases h

theorem secondPassLine_unknown {labels : Labels} {s : SecondPass} {line tok : Str} {n : Nat}
    (h : secondPassLine labels s line = .error (.unknownMnemonic n tok)) :
    n = s.lineNumber ∧ (instructionOf line).head? = some tok := by
  unfold secondPassLine at h
  split at h
  next => cases h
  next mnemonic args hwords =>
    split at h
    next =>
      split at h
      next =>
        rcases bind_eq_error.mp h with h | ⟨v, -, h⟩
        · exact absurd h parsed_ne
        · cases h
      next => cases h
    next =>
      rcases bind_eq_error.mp h with h | ⟨part, -, h⟩
      · unfold instructionToOpcode at h
        split at h
        next =>
          cases h
          exact ⟨rfl, by rw [hwords]; rfl⟩
        next =>
          rcases bind_eq_error.mp h with h | ⟨codes, -, h⟩
          · obtain ⟨arg, -, h⟩ := mapM_eq_error h
            exact absurd h operandBytes_ne
          · cases h
      · cases h

/-! ### The report -/

/-- **The line of a report.** The report of an unknown mnemonic is about the first line
that the pass cannot take: the word is that line's, and the number is one more than the
lines above that the pass has counted. It is the line's number exactly when the pass
leaves none of them out. -/
theorem reported_line {code tok : Str} {n : Nat} (h : asmToOpcodes code = .error (.unknownMnemonic n tok)) :
    ∃ above line below, getlines code = above ++ line :: below ∧
      ((∃ s, firstPass above = .ok s ∧ firstPassLine s line = .error (.unknownMnemonic n tok) ∧
          (words (cutComment line)).head? = some tok ∧ Numbered counted above n) ∨
        ∃ first s, firstPass (getlines code) = .ok first ∧ secondPass first.addressesOfLabels above = .ok s ∧
          secondPassLine (withStart first.addressesOfLabels) s line = .error (.unknownMnemonic n tok) ∧
          (instructionOf line).head? = some tok ∧ Numbered emitting above n) := by
  rcases bind_eq_error.mp h with h | ⟨first, hfirst, h⟩
  · obtain ⟨above, line, below, s, hlines, hs, hline⟩ := foldlM_eq_error h
    obtain ⟨hn, htok⟩ := firstPassLine_unknown hline
    exact ⟨above, line, below, hlines, .inl ⟨s, hs, hline, htok,
      numbered_of_countP (hn.trans (firstPass_number hs))⟩⟩
  · rcases bind_eq_error.mp h with h | ⟨second, -, h⟩
    · obtain ⟨above, line, below, s, hlines, hs, hline⟩ := foldlM_eq_error h
      obtain ⟨hn, htok⟩ := secondPassLine_unknown hline
      exact ⟨above, line, below, hlines, .inr ⟨first, s, hfirst, hs, hline, htok,
        numbered_of_countP (hn.trans (secondPass_number hs))⟩⟩
    · cases h

/-- The third line, reported as the second. -/
theorem reported_line_blank : ∃ above line below, getlines "NOP\n\nFOO".toList = above ++ line :: below ∧
    ((∃ s, firstPass above = .ok s ∧ firstPassLine s line = .error (.unknownMnemonic 2 "FOO".toList) ∧
        (words (cutComment line)).head? = some "FOO".toList ∧ Numbered counted above 2) ∨
      ∃ first s, firstPass (getlines "NOP\n\nFOO".toList) = .ok first ∧
        secondPass first.addressesOfLabels above = .ok s ∧
        secondPassLine (withStart first.addressesOfLabels) s line = .error (.unknownMnemonic 2 "FOO".toList) ∧
        (instructionOf line).head? = some "FOO".toList ∧ Numbered emitting above 2) :=
  reported_line (by decide +kernel)

end CustomIsaVm.Assembler
