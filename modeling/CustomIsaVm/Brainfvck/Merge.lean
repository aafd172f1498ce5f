import Mathlib.Data.List.Basic
import CustomIsaVm.Brainfvck.Code

/-! Merging runs preserves behaviour.

`Merged` is what the first optimisation does to a list of items: runs that add to
one place become one item, or none if they cancel, and the rest stays. Wherever
runs are cut, `merge_simulation` holds: the two programs meet at the same point
with the same registers, cells and streams. -/
namespace CustomIsaVm.Brainfvck
open CustomIsaVm.System

/-! ### States that differ in their code only -/

/-- Equal up to the scratch registers and the code still to come. -/
structure Code.Same (s t : Code) : Prop where
  a : s.a = t.a
  mem : s.mem = t.mem
  cin : s.cin = t.cin
  cout : s.cout = t.cout

namespace Code.Same
variable {s t : Code}

theorem cell (h : s.Same t) : s.get .cell = t.get .cell := by simp only [get, h.a, h.mem]

theorem goto (h : s.Same t) (xs ys : List Item) : (s.goto xs).Same (t.goto ys) :=
  ⟨h.a, h.mem, h.cin, h.cout⟩

theorem get (h : s.Same t) {d : Place} (hd : d = .a ∨ d = .cell) : s.get d = t.get d := by
  rcases hd with rfl | rfl
  · exact h.a
  · exact h.cell

theorem set (h : s.Same t) (v : MemCell) (d : Place) : (s.set v d).Same (t.set v d) := by
  obtain ⟨ha, hmem, hcin, hcout⟩ := h
  cases d <;> constructor <;> simp [Code.set, ha, hmem, hcin, hcout]

theorem print (h : s.Same t) : s.print.Same t.print := by
  refine ⟨h.a, h.mem, h.cin, ?_⟩
  show s.cout ++ [s.get .cell] = t.cout ++ [t.get .cell]
  rw [h.cout, h.cell]

theorem input (h : s.Same t) : s.input.Same t.input := by
  have hset := h.set (UInt8.ofInt s.cin.extract.1) .cell
  unfold Code.input
  rw [← h.cin]
  exact ⟨hset.a, hset.mem, rfl, hset.cout⟩

end Code.Same

/-- An item that leaves the scratch registers alone. -/
def Item.plain : Item → Bool
  | op _ d (.num _) => d == .a || d == .cell
  | op _ _ (.place _) => false
  | _ => true

theorem Item.plain_bump (d : Place) (v : Int) (h : d = .a ∨ d = .cell) : (bump d v).plain = true := by
  unfold bump
  rcases h with rfl | rfl <;> split <;> rfl

/-- A plain item that is no bracket does the same in both programs. -/
theorem Code.same_next {p q : List Item} {s t : Code} {x : Item} {xs ys : List Item} (h : s.Same t)
    (hs : s.rest = x :: xs) (ht : t.rest = x :: ys) (hplain : x.plain = true)
    (hx : x.isBracket = false) :
    (∃ e, (system p).next s = .error e ∧ (system q).next t = .error e) ∨
      ∃ s' t', (system p).next s = .ok s' ∧ (system q).next t = .ok t' ∧ s'.Same t' ∧ s'.rest = xs ∧
        t'.rest = ys := by
  cases x with
  | halt => exact .inl ⟨_, next_halt hs, next_halt ht⟩
  | print => exact .inr ⟨_, _, next_print hs, next_print ht, h.print.goto xs ys, rfl, rfl⟩
  | input => exact .inr ⟨_, _, next_input hs, next_input ht, h.input.goto xs ys, rfl, rfl⟩
  | op o d src =>
    refine .inr ⟨_, _, next_op hs, next_op ht, ?_, rfl, rfl⟩
    cases src with
    | place p => cases hplain
    | num v =>
      rw [h.get (by simpa [Item.plain] using hplain)]
      exact (h.set _ d).goto xs ys
  | loopStart id => cases hx
  | loopEnd id => cases hx

/-- A bracket leads on, or to the other bracket, in both programs. -/
theorem Code.same_bracket {p q : List Item} {s t : Code} {x : Item} {xs ys : List Item} (h : s.Same t)
    (hs : s.rest = x :: xs) (ht : t.rest = x :: ys) (hx : x.isBracket = true) :
    ∃ s' t', (system p).next s = .ok s' ∧ (system q).next t = .ok t' ∧ s'.Same t' ∧
      ((s'.rest = xs ∧ t'.rest = ys) ∨
        (s'.rest = Brainfvck.seek x.partner p ∧ t'.rest = Brainfvck.seek x.partner q)) := by
  cases x with
  | loopStart id =>
    refine ⟨_, _, next_loopStart hs, next_loopStart ht, h.goto _ _, ?_⟩
    rw [goto_rest, goto_rest, ← h.cell]
    split
    · exact .inr ⟨rfl, rfl⟩
    · exact .inl ⟨rfl, rfl⟩
  | loopEnd id =>
    refine ⟨_, _, next_loopEnd hs, next_loopEnd ht, h.goto _ _, ?_⟩
    rw [goto_rest, goto_rest, ← h.cell]
    split
    · exact .inl ⟨rfl, rfl⟩
    · exact .inr ⟨rfl, rfl⟩
  | halt => cases hx
  | print => cases hx
  | input => cases hx
  | op o d src => cases hx

/-! ### Merged programs -/

/-- What a run that adds up to `v` is replaced by. -/
def merged (d : Place) (v : Int) : List Item := if v = 0 then [] else [.bump d v]

inductive Merged : List Item → List Item → Prop
  | nil : Merged [] []
  | keep (x : Item) {xs ys : List Item} (h : Merged xs ys) : Merged (x :: xs) (x :: ys)
  | run (d : Place) (vs : List Int) {xs ys : List Item} (hd : d = .a ∨ d = .cell) (h : Merged xs ys) :
      Merged (vs.map (Item.bump d) ++ xs) (merged d vs.sum ++ ys)

theorem Merged.append {xs ys xs' ys' : List Item} (h : Merged xs ys) (h' : Merged xs' ys') :
    Merged (xs ++ xs') (ys ++ ys') := by
  induction h with
  | nil => exact h'
  | keep x _ ih => exact .keep x ih
  | run d vs hd _ ih =>
    rw [List.append_assoc, List.append_assoc]
    exact .run d vs hd ih

theorem notin_merged {x : Item} (hx : x.isBracket = true) (d : Place) (v : Int) : x ∉ merged d v := by
  unfold merged
  split
  · simp
  · rw [List.mem_singleton]
    rintro rfl
    simp at hx

theorem notin_bumps {x : Item} (hx : x.isBracket = true) (d : Place) (vs : List Int) :
    x ∉ vs.map (Item.bump d) := by
  rw [List.mem_map]
  rintro ⟨v, -, rfl⟩
  simp at hx

/-- Brackets stay where they are. -/
theorem Merged.seek {p q : List Item} (h : Merged p q) {x : Item} (hx : x.isBracket = true) :
    Merged (seek x p) (seek x q) := by
  induction h with
  | nil => exact .nil
  | keep y h ih =>
    by_cases hyx : y = x
    · subst hyx
      rw [seek_cons_self, seek_cons_self]
      exact .keep y h
    · rw [seek_cons_ne _ hyx, seek_cons_ne _ hyx]
      exact ih
  | run d vs _ _ ih =>
    rw [seek_append _ (notin_bumps hx d vs), seek_append _ (notin_merged hx d _)]
    exact ih

namespace Code

/-- A run adds its values up. -/
theorem run_bumps {p : List Item} (d : Place) (vs : List Int) {xs : List Item} {s : Code}
    (h : s.rest = vs.map (Item.bump d) ++ xs) :
    (system p).Reaches s ((s.set (s.get d + UInt8.ofInt vs.sum) d).goto xs) := by
  induction vs generalizing s with
  | nil =>
    rw [List.map_nil, List.nil_append] at h
    simpa [← h] using Reaches.refl s
  | cons v vs ih =>
    refine (Reaches.single (next_bump h)).trans ?_
    have hrun := ih (s := (s.set (s.get d + UInt8.ofInt v) d).goto (vs.map (Item.bump d) ++ xs)) rfl
    simpa [UInt8.add_assoc] using hrun

theorem run_merged {p : List Item} (d : Place) (v : Int) {xs : List Item} {s : Code}
    (h : s.rest = merged d v ++ xs) :
    (system p).Reaches s ((s.set (s.get d + UInt8.ofInt v) d).goto xs) := by
  unfold merged at h
  split at h
  next hv =>
    rw [List.nil_append] at h
    simpa [hv, ← h] using Reaches.refl s
  next => exact .single (next_bump h)

end Code

/-- At the same point of a program and of its merged form. -/
structure InMerge (s t : Code) : Prop where
  same : s.Same t
  code : Merged s.rest t.rest
  plain : ∀ x ∈ s.rest, x.plain = true

/-- The induction is on how the code still to come was merged: a run that cancels
leaves nothing to do in the merged program, and both go on behind it. -/
theorem InMerge.advance {p q : List Item} (hpq : Merged p q) (hplain : ∀ x ∈ p, x.plain = true)
    {xs ys : List Item} (h : Merged xs ys) : ∀ {s t : Code}, s.Same t → s.rest = xs → t.rest = ys →
      (∀ x ∈ xs, x.plain = true) →
      (∃ e s' t', (Code.system p).Ends s e s' ∧ (Code.system q).Ends t e t' ∧ s'.cout = t'.cout) ∨
        ∃ s' t', (Code.system p).Progress s s' ∧ (Code.system q).Progress t t' ∧ InMerge s' t' := by
  induction h with
  | nil =>
    intro s t hsame hs ht _
    exact .inl ⟨_, s, t, ⟨.refl s, Code.next_nil hs⟩, ⟨.refl t, Code.next_nil ht⟩, hsame.cout⟩
  | @keep x xs ys h _ =>
    intro s t hsame hs ht hxs
    have htail : ∀ y ∈ xs, y.plain = true := fun y hy => hxs y (List.mem_cons_of_mem x hy)
    cases hx : x.isBracket with
    | true =>
      obtain ⟨s', t', hs', ht', hsame', ⟨hrs, hrt⟩ | ⟨hrs, hrt⟩⟩ :=
        Code.same_bracket (p := p) (q := q) hsame hs ht hx
      · exact .inr ⟨s', t', .single hs', .single ht', hsame', hrs ▸ hrt ▸ h, hrs ▸ htail⟩
      · have hpartner : x.partner.isBracket = true := by cases x <;> first | rfl | cases hx
        refine .inr ⟨s', t', .single hs', .single ht', hsame', hrs ▸ hrt ▸ hpq.seek hpartner, ?_⟩
        rw [hrs]
        exact fun y hy => hplain y ((seek_suffix _ p).subset hy)
    | false =>
      rcases Code.same_next (p := p) (q := q) hsame hs ht (hxs x (List.mem_cons_self ..)) hx with
        ⟨e, hes, het⟩ | ⟨s', t', hs', ht', hsame', hrs, hrt⟩
      · exact .inl ⟨e, s, t, ⟨.refl s, hes⟩, ⟨.refl t, het⟩, hsame.cout⟩
      · exact .inr ⟨s', t', .single hs', .single ht', hsame', hrs ▸ hrt ▸ h, hrs ▸ htail⟩
  | @run d vs xs ys hd h ih =>
    intro s t hsame hs ht hxs
    have hrun := Code.run_bumps (p := p) d vs hs
    have hmerged := Code.run_merged (p := q) d vs.sum ht
    have hmeet : (((s.set (s.get d + UInt8.ofInt vs.sum) d).goto xs)).Same
        ((t.set (t.get d + UInt8.ofInt vs.sum) d).goto ys) := by
      rw [hsame.get hd]
      exact (hsame.set _ d).goto xs ys
    rcases ih hmeet rfl rfl fun y hy => hxs y (List.mem_append_right _ hy) with
      ⟨e, s', t', hs', ht', hout⟩ | ⟨s', t', hs', ht', hin⟩
    · exact .inl ⟨e, s', t', .of_reaches hrun hs', .of_reaches hmerged ht', hout⟩
    · exact .inr ⟨s', t', hrun.trans_progress hs', hmerged.trans_progress ht', hin⟩

/-- **A program and its merged form behave alike.** -/
def merge_simulation {p q : List Item} (hpq : Merged p q) (hplain : ∀ x ∈ p, x.plain = true) :
    Simulation (Code.system p) (Code.system q) where
  Rel := InMerge
  output h := h.same.cout
  advance h := InMerge.advance hpq hplain h.code h.same rfl rfl h.plain

end CustomIsaVm.Brainfvck
