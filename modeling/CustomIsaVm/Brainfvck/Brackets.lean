import CustomIsaVm.Lib.Brackets
import CustomIsaVm.Brainfvck.Rendering

/-! Which sources are translated, and how their brackets are paired.

The loop over the source is a loop with a stack, so what is known of such loops
applies: `generate` fails exactly on sources that are not balanced, and with which
message is read off the prefixes (`generate_overclosed`, `generate_open`,
`generate_balanced`). The two brackets of a pair get one number and no other pair
gets it (`paired`); in the items that code generation emits every bracket stands once
and has its partner (`generated_brackets`). -/
namespace CustomIsaVm.Brainfvck
open Text Fold Brackets

/-- Every bracket of the source has its partner. -/
abbrev Balanced (source : Str) : Prop := Brackets.Balanced '[' ']' source

/-- Some prefix of the source closes more than it opens. -/
abbrev Overclosed (source : Str) : Prop := Brackets.Overclosed '[' ']' source

/-! ### The loop over the source -/

theorem translate_stacked : Stacked translate Codegen.parStack '[' ']' .unmatchedClose where
  ne := by decide
  push s := ⟨_, s.numberOfPar, rfl, rfl⟩
  pop s b st hs := by
    simp only [translate, hs]
    exact ⟨_, rfl, rfl⟩
  empty s hs := by simp only [translate, hs]
  other s c hopen hclose := by
    unfold translate
    split
    · exact ⟨_, rfl, rfl⟩
    · exact ⟨_, rfl, rfl⟩
    · exact ⟨_, rfl, rfl⟩
    · exact ⟨_, rfl, rfl⟩
    · exact ⟨_, rfl, rfl⟩
    · exact ⟨_, rfl, rfl⟩
    · exact absurd rfl hopen
    · exact absurd rfl hclose
    · exact ⟨s, rfl, rfl⟩

theorem generate_overclosed {source : Str} (h : Overclosed source) :
    generate source = .error .unmatchedClose := by
  rw [generate_eq, translate_stacked.overclosed h rfl]
  rfl

theorem generate_open {source : Str} (h : ¬ Overclosed source) (hcount : source.count '[' ≠ source.count ']') :
    generate source = .error .unmatchedOpen := by
  obtain ⟨s, hs, hlen⟩ := translate_stacked.ends (s := .start) h rfl
  have hopen : s.parStack ≠ [] := by
    intro hnil
    rw [hnil, List.length_nil] at hlen
    omega
  rw [generate_eq, hs]
  exact if_pos hopen

theorem generate_balanced {source : Str} (h : Balanced source) : ∃ text, generate source = .ok text := by
  obtain ⟨s, hs, hstack⟩ := translate_stacked.balanced h .start
  rw [generate_eq, hs]
  exact ⟨_, if_neg (by rw [hstack]; exact not_not_intro rfl)⟩

/-! ### Pairs -/

/-- The number that the bracket at `i` receives: a new one where it opens, the one on
top of the stack where it closes. -/
def parIdAt (source : Str) (i : Nat) : Option Nat :=
  match (source.take i).foldlM translate .start with
  | .error _ => none
  | .ok s => match source[i]? with
    | some '[' => some s.numberOfPar
    | some ']' => s.parStack.head?
    | _ => none

/-- The bracket at `i` is closed by the one at `j`. -/
structure Matching (source : Str) (i j : Nat) : Prop where
  opens : source[i]? = some '['
  closes : source[j]? = some ']'
  lt : i < j
  between : Balanced ((source.take j).drop (i + 1))

/-- Each bracket that opens is closed by another, the two have one number, and other
pairs have others. -/
structure Paired (source : Str) : Prop where
  closed : ∀ i, source[i]? = some '[' → ∃ j, Matching source i j
  same : ∀ i j, Matching source i j → ∃ id, parIdAt source i = some id ∧ parIdAt source j = some id
  distinct : ∀ i j i' j', Matching source i j → Matching source i' j' → i ≠ i' →
    parIdAt source i ≠ parIdAt source i'

/-- Numbers are given out in turn. -/
theorem translate_number {text : Str} {s t : Codegen} (h : text.foldlM translate s = .ok t) :
    t.numberOfPar = s.numberOfPar + text.count '[' := by
  refine foldlM_along (I := fun above u => u.numberOfPar = s.numberOfPar + above.count '[') []
    (fun above u c v hu hv => ?_) h rfl
  rw [List.count_append]
  unfold translate at hv
  split at hv
  · cases hv; exact hu
  · cases hv; exact hu
  · cases hv; exact hu
  · cases hv; exact hu
  · cases hv; exact hu
  · cases hv; exact hu
  · cases hv; exact congrArg (· + 1) hu
  · split at hv <;> cases hv
    exact hu
  next hopen hclose =>
    cases hv
    rw [List.count_singleton, if_neg (by simpa using hopen)]
    exact hu

theorem prefix_fold {source : Str} (h : Balanced source) (i : Nat) :
    ∃ s, (source.take i).foldlM translate .start = .ok s := by
  have hover : ¬ Overclosed (source.take i) := by
    rintro ⟨p, hp, hlt⟩
    exact h.1 ⟨p, hp.trans (List.take_prefix i source), hlt⟩
  obtain ⟨s, hs, -⟩ := translate_stacked.ends (s := .start) hover rfl
  exact ⟨s, hs⟩

/-- An opening bracket gets as its number how many stand before it. -/
theorem parIdAt_open {source : Str} (h : Balanced source) {i : Nat} (hi : source[i]? = some '[') :
    parIdAt source i = some ((source.take i).count '[') := by
  obtain ⟨s, hs⟩ := prefix_fold h i
  have hnumber : s.numberOfPar = 0 + (source.take i).count '[' := translate_number hs
  rw [Nat.zero_add] at hnumber
  simp only [parIdAt, hs, hi, hnumber]

theorem take_cut {source : Str} {i j : Nat} (hi : source[i]? = some '[') (hij : i < j) :
    source.take j = source.take i ++ '[' :: (source.take j).drop (i + 1) := by
  have hget : (source.take j)[i]? = some '[' := by rwa [List.getElem?_take_of_lt hij]
  obtain ⟨hlt, heq⟩ := List.getElem?_eq_some_iff.mp hget
  conv_lhs => rw [← List.take_append_drop i (source.take j)]
  rw [List.take_take, Nat.min_eq_left hij.le, List.drop_eq_getElem_cons hlt, heq]

theorem parIdAt_close {source : Str} (h : Balanced source) {i j : Nat} (hm : Matching source i j) :
    parIdAt source j = some ((source.take i).count '[') := by
  obtain ⟨s, hs⟩ := prefix_fold h i
  have hnumber : s.numberOfPar = 0 + (source.take i).count '[' := translate_number hs
  rw [Nat.zero_add] at hnumber
  obtain ⟨u, id, hu, hpush⟩ : ∃ u id, translate s '[' = .ok u ∧ u.parStack = s.numberOfPar :: id :=
    ⟨_, _, rfl, rfl⟩
  obtain ⟨t, ht, hstack⟩ := translate_stacked.balanced hm.between u
  have hfold : (source.take j).foldlM translate .start = .ok t := by
    rw [take_cut hm.opens hm.lt]
    exact foldlM_append_eq_ok.mpr ⟨s, hs, foldlM_cons_eq_ok.mpr ⟨u, hu, ht⟩⟩
  simp only [parIdAt, hfold, hm.closes, hstack, hpush, List.head?_cons, hnumber]

theorem matching_of_balanced {source : Str} (h : Balanced source) {i : Nat} (hi : source[i]? = some '[') :
    ∃ j, Matching source i j := by
  obtain ⟨hlt, heq⟩ := List.getElem?_eq_some_iff.mp hi
  have hcut : source = source.take i ++ '[' :: source.drop (i + 1) := by
    rw [← heq, ← List.drop_eq_getElem_cons hlt, List.take_append_drop]
  obtain ⟨v, w, hsplit, hv⟩ := (hcut ▸ h : Balanced _).closes (by decide)
  have hlen : (source.take i ++ '[' :: v).length = i + 1 + v.length := by
    simp [Nat.min_eq_left hlt.le]
    omega
  have hj : source = (source.take i ++ '[' :: v) ++ ']' :: w := by
    conv_lhs => rw [hcut, hsplit]
    simp
  refine ⟨i + 1 + v.length, hi, ?_, by omega, ?_⟩
  · rw [hj, ← hlen, List.getElem?_append_right le_rfl, Nat.sub_self]
    rfl
  · have htake : source.take (i + 1 + v.length) = source.take i ++ '[' :: v := by
      conv_lhs => rw [hj, ← hlen]
      exact List.take_left
    have hdrop : (source.take (i + 1 + v.length)).drop (i + 1) = v := by
      rw [htake, List.append_cons]
      exact List.drop_left' (by simp [Nat.min_eq_left hlt.le])
    rwa [hdrop]

/-- Two brackets that open are told apart by how many stand before them. -/
theorem count_lt {source : Str} {i j : Nat} (hi : source[i]? = some '[') (hij : i < j) :
    (source.take i).count '[' < (source.take j).count '[' := by
  rw [take_cut hi hij, List.count_append, List.count_cons_self]
  omega

/-- **Brackets are paired.** -/
theorem paired {source : Str} (h : Balanced source) : Paired source where
  closed i hi := matching_of_balanced h hi
  same i j hm := ⟨_, parIdAt_open h hm.opens, parIdAt_close h hm⟩
  distinct i j i' j' hm hm' hne := by
    rw [parIdAt_open h hm.opens, parIdAt_open h hm'.opens, ne_eq, Option.some.injEq]
    rcases Nat.lt_or_gt_of_ne hne with hlt | hlt
    · exact Nat.ne_of_lt (count_lt hm.opens hlt)
    · exact (Nat.ne_of_lt (count_lt hm'.opens hlt)).symm

/-! ### Brackets of the items -/

theorem UniqueBrackets.of_sublist {p q : List Item} (h : UniqueBrackets p)
    (hsub : (q.filter Item.isBracket).Sublist (p.filter Item.isBracket)) : UniqueBrackets q :=
  List.Nodup.sublist hsub h

theorem uniqueBrackets_snoc {p : List Item} {x : Item} (h : UniqueBrackets p)
    (hx : x.isBracket = true → x ∉ p) : UniqueBrackets (p ++ [x]) := by
  unfold UniqueBrackets at h ⊢
  rw [List.filter_append]
  cases hbracket : x.isBracket with
  | false => simpa [hbracket] using h
  | true =>
    rw [List.filter_cons_of_pos hbracket, List.filter_nil, List.nodup_append]
    refine ⟨h, List.nodup_singleton x, fun a ha b hb => ?_⟩
    rw [List.mem_singleton] at hb
    subst hb
    rintro rfl
    exact hx hbracket (List.mem_filter.mp ha).1

/-- Where code generation stands: which brackets it has emitted, and which of them wait
on the stack for their partner. -/
structure Numbered (g : Generated) : Prop where
  unique : UniqueBrackets g.items
  below : ∀ id, .loopStart id ∈ g.items → id < g.numberOfPar
  opened : ∀ id, .loopEnd id ∈ g.items → .loopStart id ∈ g.items
  pending : ∀ id ∈ g.parStack, .loopStart id ∈ g.items ∧ .loopEnd id ∉ g.items
  nodup : g.parStack.Nodup
  closed : ∀ id, .loopStart id ∈ g.items → id ∈ g.parStack ∨ .loopEnd id ∈ g.items

namespace Numbered
variable {g : Generated}

theorem start : Numbered .start where
  unique := by unfold UniqueBrackets; decide
  below id h := by simp [Generated.start] at h
  opened id h := by simp [Generated.start] at h
  pending id h := by simp [Generated.start] at h
  nodup := List.nodup_nil
  closed id h := by simp [Generated.start] at h

/-- An item that is no bracket changes nothing. -/
theorem add (h : Numbered g) {x : Item} (hx : x.isBracket = false) : Numbered (g.add x) := by
  have hmem : ∀ {y : Item}, y.isBracket = true → (y ∈ g.items ++ [x] ↔ y ∈ g.items) := by
    intro y hy
    rw [List.mem_append, List.mem_singleton, or_iff_left]
    rintro rfl
    rw [hx] at hy
    cases hy
  refine ⟨uniqueBrackets_snoc h.unique fun hb => ?_, fun id => ?_, fun id => ?_, fun id hid => ?_, h.nodup,
    fun id => ?_⟩
  · rw [hx] at hb
    cases hb
  · rw [Generated.add, hmem rfl]
    exact h.below id
  · rw [Generated.add, hmem rfl, hmem rfl]
    exact h.opened id
  · rw [Generated.add, hmem rfl, hmem rfl]
    exact h.pending id hid
  · rw [Generated.add, hmem rfl, hmem rfl]
    exact h.closed id

theorem opening (h : Numbered g) :
    Numbered ⟨g.items ++ [.loopStart g.numberOfPar], g.numberOfPar + 1, g.numberOfPar :: g.parStack⟩ := by
  have hnew : Item.loopStart g.numberOfPar ∉ g.items := fun hmem => Nat.lt_irrefl _ (h.below _ hmem)
  have hend : Item.loopEnd g.numberOfPar ∉ g.items := fun hmem => hnew (h.opened _ hmem)
  refine ⟨uniqueBrackets_snoc h.unique fun _ => hnew, fun id hid => ?_, fun id hid => ?_, fun id hid => ?_, ?_,
    fun id hid => ?_⟩
  · simp only [List.mem_append, List.mem_singleton, Item.loopStart.injEq] at hid
    rcases hid with hid | rfl
    · exact Nat.lt_succ_of_lt (h.below id hid)
    · exact Nat.lt_succ_self _
  · simp only [List.mem_append, List.mem_singleton, reduceCtorEq, or_false] at hid
    exact List.mem_append_left _ (h.opened id hid)
  · simp only [List.mem_append, List.mem_singleton, Item.loopStart.injEq, reduceCtorEq, or_false]
    rcases List.mem_cons.mp hid with rfl | hid
    · exact ⟨.inr rfl, hend⟩
    · exact ⟨.inl (h.pending id hid).1, (h.pending id hid).2⟩
  · refine List.nodup_cons.mpr ⟨fun hmem => hnew (h.pending _ hmem).1, h.nodup⟩
  · simp only [List.mem_append, List.mem_cons, Item.loopStart.injEq, reduceCtorEq, List.not_mem_nil,
      or_false] at hid ⊢
    rcases hid with hid | rfl
    · exact (h.closed id hid).imp_left .inr
    · exact .inl (.inl rfl)

theorem closing {id : Nat} {parStack : List Nat} (h : Numbered g) (hstack : g.parStack = id :: parStack) :
    Numbered ⟨g.items ++ [.loopEnd id], g.numberOfPar, parStack⟩ := by
  have hpending := h.pending
  have hnodup := h.nodup
  have hclosed := h.closed
  rw [hstack] at hpending hnodup hclosed
  rw [List.nodup_cons] at hnodup
  obtain ⟨hopen, hnew⟩ := hpending id (List.mem_cons_self ..)
  refine ⟨uniqueBrackets_snoc h.unique fun _ => hnew, fun i hi => ?_, fun i hi => ?_, fun i hi => ?_,
    hnodup.2, fun i hi => ?_⟩
  · simp only [List.mem_append, List.mem_singleton, reduceCtorEq, or_false] at hi
    exact h.below i hi
  · simp only [List.mem_append, List.mem_singleton, Item.loopEnd.injEq] at hi
    rcases hi with hi | rfl
    · exact List.mem_append_left _ (h.opened i hi)
    · exact List.mem_append_left _ hopen
  · obtain ⟨hstart, hend⟩ := hpending i (List.mem_cons_of_mem id hi)
    simp only [List.mem_append, List.mem_singleton, Item.loopEnd.injEq, reduceCtorEq, or_false, not_or]
    refine ⟨hstart, hend, ?_⟩
    rintro rfl
    exact hnodup.1 hi
  · simp only [List.mem_append, List.mem_singleton, Item.loopEnd.injEq, reduceCtorEq, or_false] at hi ⊢
    rcases hclosed i hi with hmem | hmem
    · rcases List.mem_cons.mp hmem with rfl | hmem
      · exact .inr (.inr rfl)
      · exact .inl hmem
    · exact .inr (.inl hmem)

theorem step (h : Numbered g) {c : Char} {g' : Generated} (hs : g.step c = some g') : Numbered g' := by
  unfold Generated.step at hs
  split at hs
  · cases hs; exact h.add rfl
  · cases hs; exact h.add rfl
  · cases hs; exact h.add rfl
  · cases hs; exact h.add rfl
  · cases hs; exact h.add rfl
  · cases hs; exact h.add rfl
  · cases hs; exact h.opening
  · split at hs
    · cases hs
    next hstack => cases hs; exact h.closing hstack
  · cases hs; exact h

end Numbered

/-- What code generation keeps of a list of items holds in the end. -/
theorem generated_keeps {I : Generated → Prop} (step : ∀ g c g', I g → g.step c = some g' → I g')
    {text : Str} {g g' : Generated} (h : text.foldlM Generated.step g = some g') (hg : I g) : I g' := by
  induction text generalizing g with
  | nil =>
    cases h
    exact hg
  | cons c text ih =>
    rw [List.foldlM_cons] at h
    obtain ⟨u, hu, h⟩ := Option.bind_eq_some_iff.mp h
    exact ih h (step g c u hg hu)

/-- The loop over the source writes items that add one, and so does it with the `HALT` after it. -/
theorem translated_items {source : Str} {s : Codegen}
    (h : (getlines source).flatten.foldlM translate .start = .ok s) {text : Str}
    (htext : text = s.codeTmp ∨ text = (s.emit "HALT\n".toList).codeTmp) :
    ∃ items, text = assembly items ∧ ∀ x ∈ items, Emitted Unit x := by
  obtain ⟨g, hg, hwrites⟩ := Generated.start_writes.run h
  have hitems : ∀ x ∈ g.items, Emitted Unit x := by
    refine generated_keeps (fun _ _ _ hg hs => Generated.step_emitted hs hg) hg ?_
    intro x hx
    rw [List.mem_singleton.mp hx]
    exact .fixed rfl
  rcases htext with rfl | rfl
  · exact ⟨g.items, hwrites.code, hitems⟩
  · refine ⟨g.items ++ [.halt], ?_, fun x hx => ?_⟩
    · rw [assembly_append, ← hwrites.code]
      rfl
    · rcases List.mem_append.mp hx with hx | hx
      · exact hitems x hx
      · rw [List.mem_singleton.mp hx]
        exact .fixed rfl

/-- Merging keeps all brackets. -/
theorem Merged.brackets {p q : List Item} (h : Merged p q) :
    q.filter Item.isBracket = p.filter Item.isBracket := by
  have hnone : ∀ {xs : List Item}, (∀ x : Item, x.isBracket = true → x ∉ xs) → xs.filter Item.isBracket = [] := by
    intro xs hxs
    rw [List.filter_eq_nil_iff]
    exact fun x hx hbracket => hxs x hbracket hx
  induction h with
  | nil => rfl
  | keep x _ ih => rw [List.filter_cons, List.filter_cons, ih]
  | run d vs _ _ ih =>
    rw [List.filter_append, List.filter_append, hnone fun x hx => notin_merged hx d _,
      hnone fun x hx => notin_bumps hx d vs, ih]

/-- Replacing loops keeps brackets in order. -/
theorem Looped.brackets {p q : List Item} (h : Looped p q) :
    (q.filter Item.isBracket).Sublist (p.filter Item.isBracket) := by
  induction h with
  | nil => exact .slnil
  | keep x _ ih =>
    rw [List.filter_cons, List.filter_cons]
    split
    · exact ih.cons_cons x
    · exact ih
  | @loop id body xs ys others hbody h ih =>
    have hnone : (loopItems others).filter Item.isBracket = [] := by
      rw [List.filter_eq_nil_iff]
      exact fun x hx hbracket => notin_loopItems hbracket others hx
    rw [List.filter_append, hnone, List.nil_append]
    have hxs : xs.Sublist (body ++ .loopEnd id :: xs) :=
      (List.sublist_cons_self (.loopEnd id) xs).trans (List.sublist_append_right body _)
    exact ih.trans (List.Sublist.filter _ (hxs.cons (.loopStart id)))

end CustomIsaVm.Brainfvck
