import CustomIsaVm.Lib.Fold
import CustomIsaVm.Machine.Host
import CustomIsaVm.Machine.Sync

/-! The screen and the keyboard.

A program deals with its window through three instructions: `FBSET` sets a pixel,
`FBSYNC` shows the framebuffer and lets the window, while it is open, report a key,
`INPUT` takes the key reported last. `Screen` is the device these instructions work,
with a canvas in place of RAM, and a run works it as its instructions say, one after the
other (`onScreen_next`). So the framebuffer holds what was set last, the window shows
what it held at the last `FBSYNC` (`canvas_exact`), and a key is taken once
(`keys_exact`). -/
namespace CustomIsaVm

open Effect Exec

/-- What an instruction does to the screen or the keyboard. -/
inductive Deal where
  | set (pixel : Nat) (color : MemCell)
  | sync (event : Option WindowEvent)
  | takeKey
  deriving DecidableEq, Repr

namespace Deal

/-- The colour a pixel is set to. -/
def colorAt (i : Nat) : Deal → Option MemCell
  | set pixel color => if pixel = i then some color else none
  | _ => none

/-- The event of the window while a frame is shown. -/
def event : Deal → Option WindowEvent
  | sync e => e
  | _ => none

/-- The key that is reported. -/
def key (d : Deal) : Option UInt8 := d.event.bind (·.key)

def isSync : Deal → Bool
  | sync _ => true
  | _ => false

end Deal

/-- A canvas of colour indices, the frame on display, and the key reported last. -/
structure Screen where
  canvas : Nat → MemCell
  frame : List (Option UInt32)
  key : UInt8

/-- The colours of a canvas, pixel by pixel, where the palette has them. -/
@[irreducible] def painted (canvas : Nat → MemCell) : List (Option UInt32) :=
  (List.range VMconf.framebufferTotSize).map fun i => VMconf.colors[(canvas i).toNat]?

theorem painted_congr {c c' : Nat → MemCell} (h : ∀ i < VMconf.framebufferTotSize, c i = c' i) :
    painted c = painted c' := by
  unfold painted
  exact List.map_congr_left fun i hi => by rw [h i (List.mem_range.mp hi)]

namespace Screen

def deal (s : Screen) : Deal → Screen
  | .set pixel color => {s with canvas := Function.update s.canvas pixel color}
  | .sync e => {s with frame := painted s.canvas, key := (e.bind (·.key)).getD s.key}
  | .takeKey => {s with key := 0}

/-! ### What a screen has become -/

/-- A pixel has the colour it was set to last. -/
theorem canvas_deals (ds : List Deal) (s : Screen) (i : Nat) :
    (ds.foldl deal s).canvas i = (ds.filterMap (Deal.colorAt i)).getLastD (s.canvas i) := by
  refine Fold.foldl_last (g := fun s : Screen => s.canvas i) (fun s d _ => ?_) s
  cases d with
  | set pixel color =>
    by_cases h : pixel = i
    · subst h
      simp only [deal, Deal.colorAt, Function.update_self, if_pos, Option.getD_some]
    · simp only [deal, Deal.colorAt, if_neg h, Function.update_of_ne (Ne.symm h), Option.getD_none]
  | sync e => rfl
  | takeKey => rfl

/-- The frame on display is the one that was shown last. -/
theorem frame_kept {ds : List Deal} (h : ∀ d ∈ ds, d.isSync = false) (s : Screen) :
    (ds.foldl deal s).frame = s.frame := by
  induction ds generalizing s with
  | nil => rfl
  | cons d ds ih =>
    have hd := h d (List.mem_cons_self ..)
    rw [List.foldl_cons, ih fun e he => h e (List.mem_cons_of_mem d he)]
    cases d with
    | sync e => cases hd
    | set pixel color => rfl
    | takeKey => rfl

theorem frame_shown {before after : List Deal} {e : Option WindowEvent} (h : ∀ d ∈ after, d.isSync = false)
    (s : Screen) : ((before ++ .sync e :: after).foldl deal s).frame = painted (before.foldl deal s).canvas := by
  rw [List.foldl_append, List.foldl_cons, frame_kept h]
  simp only [deal]

/-- The key is the one that was reported last, until it is taken. -/
theorem key_reported {ds : List Deal} (h : .takeKey ∉ ds) (s : Screen) :
    (ds.foldl deal s).key = (ds.filterMap Deal.key).getLastD s.key := by
  refine Fold.foldl_last (g := Screen.key) (fun s d hd => ?_) s
  cases d with
  | set pixel color => rfl
  | sync e => rfl
  | takeKey => exact absurd hd h

theorem key_taken {before after : List Deal} (h : .takeKey ∉ after) (s : Screen) :
    ((before ++ .takeKey :: after).foldl deal s).key = (after.filterMap Deal.key).getLastD 0 := by
  rw [List.foldl_append, List.foldl_cons, key_reported h]
  rfl

end Screen

/-! ### What an instruction does to the screen -/

/-- The byte an operand delivers. -/
def byteOf (m : Machine) (arg : RawArgument) : Option MemCell :=
  if arg.type = .number then some arg.value.toUInt8 else (cellOf m arg).map (·.value m)

theorem Delivers.byteOf {m : Machine} {arg : RawArgument} {v : MemCell} (h : Delivers m arg v) :
    byteOf m arg = some v := by
  rcases h with ⟨hnumber, rfl⟩ | ⟨c, hc, rfl⟩
  · exact if_pos hnumber
  · have hother : arg.type ≠ .number := by
      intro htype
      have := hc.cell
      rw [cellOf, htype] at this
      cases this
    rw [CustomIsaVm.byteOf, if_neg hother, hc.cell, Option.map_some]

namespace Machine

/-- What the instruction at PC does to the screen or the keyboard. -/
def deal (m : Machine) : Option Deal :=
  match current m with
  | .fbset index color =>
    match pixelOf m index, byteOf m color with
    | some i, some v => some (.set i.toNat v)
    | _, _ => none
  | .fbsync => some (.sync (if WindowOpen m then m.events.head? else none))
  | .input _ => if m.getGui = true ∧ m.window = .opened then some .takeKey else none
  | _ => none

/-- What the first `n` turns do. -/
def deals (n : Nat) (m : Machine) : List Deal := system.trace deal n m

/-- The first turn and what it does. -/
theorem deals_one {m m' : Machine} {d : Deal} (hnext : m.next = .ok m') (hd : m.deal = some d) :
    system.after 1 m = some m' ∧ m.deals 1 = [d] := by
  have hsystem : system.next m = .ok m' := hnext
  refine ⟨system.after_succ_ok hsystem 0, ?_⟩
  rw [deals, System.trace_succ_ok hsystem, hd]
  rfl

end Machine

/-- The framebuffer and the display buffer are those of a screen. -/
structure OnScreen (m : Machine) (s : Screen) : Prop where
  canvas : ∀ i < VMconf.framebufferTotSize, m.ram (framebufferStart + i) = s.canvas i
  frame : m.hostDisplayBuffer.map some = s.frame

theorem convert_shows {m m' : Machine} {i n : Nat} {buffer : List UInt32} (h : convert i n m = .ok buffer m') :
    buffer.map some = (List.range' i n).map fun j => VMconf.colors[(m.ram (framebufferStart + j)).toNat]? := by
  induction n generalizing i m buffer with
  | zero =>
    cases h
    rfl
  | succ n ih =>
    obtain ⟨v, m₁, hv, hrest⟩ := bind_eq_ok.mp h
    obtain ⟨rfl, -, rfl⟩ := load_eq_ok hv
    obtain ⟨c, m₂, hc, hrest⟩ := bind_eq_ok.mp hrest
    obtain ⟨buffer', m₃, hb, hlast⟩ := bind_eq_ok.mp hrest
    cases hlast
    have hcolor : VMconf.colors[(m.ram (framebufferStart + i)).toNat]? = some c := by
      cases hindex : VMconf.colors[(m.ram (framebufferStart + i)).toNat]? with
      | some d =>
        simp only [colorOf, hindex] at hc
        cases hc
        rfl
      | none =>
        simp only [colorOf, hindex] at hc
        cases hc
    obtain ⟨-, rfl⟩ := colorOf_ok hc
    rw [List.range'_succ, List.map_cons, List.map_cons, ih hb, hcolor]
    rfl

theorem fbsync_shows {m m' : Machine} (h : fbsync m = .ok () m') : m'.ram = m.ram ∧
    m'.hostDisplayBuffer.map some = painted (fun i => m.ram (framebufferStart + i)) ∧
    m'.lastKey = (((if WindowOpen m then m.events.head? else none).bind (·.key)).getD m.lastKey) ∧
    m'.events = (if WindowOpen m then m.events.tail else m.events) ∧
    m'.destroyed = (m.destroyed || (if WindowOpen m then m.events.head? else none).any (·.frame = .closed)) := by
  obtain ⟨buffer, t, bytes, hb, hupdate⟩ := fbsync_cases h
  have hframe : buffer.map some = painted fun i => m.ram (framebufferStart + i) := by
    unfold painted
    rw [convert_shows hb, List.range_eq_range']
  rcases hupdate with ⟨hnull, rfl⟩ | ⟨hstays, rfl⟩
  · have hclosed : ¬ WindowOpen m := fun hopen => by cases hnull.symm.trans hopen.1
    simp only [if_neg hclosed]
    exact ⟨rfl, hframe, rfl, rfl, (Bool.or_false _).symm⟩
  · simp only [if_pos hstays.isOpen]
    exact ⟨rfl, hframe, rfl, rfl, by rw [hstays.isOpen.2, Bool.false_or]; rfl⟩

theorem input_takes {m m' : Machine} {arg : RawArgument} (h : input arg m = .ok () m') :
    m'.hostDisplayBuffer = m.hostDisplayBuffer ∧ m'.events = m.events ∧ m'.destroyed = m.destroyed ∧
    m'.lastKey = if m.getGui = true ∧ m.window = .opened then 0 else m.lastKey := by
  obtain ⟨v, m₁, hv, hassign⟩ := bind_eq_ok.mp h
  have hhost : m'.host = m₁.host := (host_kept (fun _ => inward_assign v arg) m₁).ok hassign
  have hbuffer : m'.hostDisplayBuffer = m₁.hostDisplayBuffer := congrArg Host.hostDisplayBuffer hhost
  have hevents : m'.events = m₁.events := congrArg Host.events hhost
  have hdestroyed : m'.destroyed = m₁.destroyed := congrArg Host.destroyed hhost
  have hkey : m'.lastKey = m₁.lastKey := congrArg Host.lastKey hhost
  rcases inputValue_cases hv with ⟨htakes, -, t, rfl⟩ | ⟨hnot, -, t, rfl⟩
  · rw [if_pos htakes]
    exact ⟨hbuffer, hevents, hdestroyed, hkey⟩
  · rw [if_neg hnot]
    exact ⟨hbuffer, hevents, hdestroyed, hkey⟩

/-! ### One turn -/

namespace Machine
variable {m m' : Machine} {size : Nat}

/-- The other instructions leave the host as it is, and set a pixel at most. -/
theorem host_next (hl : Loaded size m.proc) (hi : ¬ DealsWithHost (current m)) (hnext : m.next = .ok m') :
    m'.host = m.host := by
  obtain ⟨m₁, hrun, rfl⟩ := next_perform hl hnext
  have hkept := (host_kept (fun _ => inward_perform hi) (fetched m)).ok hrun
  exact hkept

theorem deal_set {i : Nat} {v : MemCell} (h : deal m = some (.set i v)) :
    ∃ index color k, current m = .fbset index color ∧ pixelOf m index = some k ∧ i = k.toNat := by
  unfold deal at h
  split at h
  next index color hat =>
    split at h
    · cases h
      exact ⟨index, color, _, hat, ‹_›, rfl⟩
    · cases h
  next => cases h
  next => split at h <;> cases h
  next => cases h

theorem deal_inward {d : Deal} (hi : ¬ DealsWithHost (current m)) (h : deal m = some d) : ∃ i v, d = .set i v := by
  unfold deal at h
  split at h
  next =>
    split at h
    · cases h
      exact ⟨_, _, rfl⟩
    · cases h
  next hat => exact absurd (by rw [hat]; trivial) hi
  next hat => exact absurd (by rw [hat]; trivial) hi
  next => cases h

/-- The last key over a turn, what the window has yet to report, and whether it is freed. -/
theorem key_deal (hl : Loaded size m.proc) (hnext : m.next = .ok m') {s : Screen} (hkey : m.lastKey = s.key) :
    m'.lastKey = ((deal m).toList.foldl Screen.deal s).key ∧
      (deal m).toList.filterMap Deal.event ++ m'.events = m.events ∧
      m'.destroyed = (m.destroyed || ((deal m).toList.filterMap Deal.event).any (·.frame = .closed)) := by
  by_cases hi : DealsWithHost (current m)
  · obtain ⟨m₁, hrun, rfl⟩ := next_perform hl hnext
    cases hat : current m with
    | input arg =>
      rw [hat] at hrun
      obtain ⟨-, hevents, hdestroyed, hlast⟩ := input_takes hrun
      have hdestroyed : m₁.destroyed = (m.destroyed || false) := hdestroyed.trans (Bool.or_false _).symm
      have hdeal : deal m = if m.getGui = true ∧ m.window = .opened then some .takeKey else none := by
        simp only [deal, hat]
      by_cases hc : m.getGui = true ∧ m.window = .opened
      · rw [hdeal, if_pos hc]
        exact ⟨hlast.trans (if_pos hc), hevents, hdestroyed⟩
      · rw [hdeal, if_neg hc]
        exact ⟨(hlast.trans (if_neg hc)).trans hkey, hevents, hdestroyed⟩
    | fbsync =>
      rw [hat] at hrun
      obtain ⟨-, -, hlast, hevents, hdestroyed⟩ := fbsync_shows hrun
      have hdeal : deal m = some (.sync (if WindowOpen m then m.events.head? else none)) := by
        simp only [deal, hat]
      have hlast : m₁.lastKey =
        ((if WindowOpen m then m.events.head? else none).bind (·.key)).getD m.lastKey := hlast
      have hevents : m₁.events = if WindowOpen m then m.events.tail else m.events := hevents
      have hdestroyed : m₁.destroyed =
        (m.destroyed || (if WindowOpen m then m.events.head? else none).any (·.frame = .closed)) := hdestroyed
      rw [hdeal]
      by_cases hw : WindowOpen m
      · rw [if_pos hw] at hlast hevents hdestroyed ⊢
        rw [hkey] at hlast
        refine ⟨hlast, ?_, ?_⟩
        · show [Deal.sync m.events.head?].filterMap Deal.event ++ m₁.events = m.events
          rw [hevents]
          cases m.events <;> rfl
        · show m₁.destroyed = (m.destroyed || ([Deal.sync m.events.head?].filterMap Deal.event).any _)
          rw [hdestroyed]
          cases m.events with
          | nil => rfl
          | cons e rest => exact congrArg _ (Bool.or_false _).symm
      · rw [if_neg hw] at hlast hevents hdestroyed ⊢
        exact ⟨hlast.trans hkey, hevents, hdestroyed⟩
    | _ =>
      rw [hat] at hi
      exact hi.elim
  · have hhost := host_next hl hi hnext
    have hlast : m'.lastKey = m.lastKey := congrArg Host.lastKey hhost
    have hevents : m'.events = m.events := congrArg Host.events hhost
    have hdestroyed : m'.destroyed = (m.destroyed || false) :=
      (congrArg Host.destroyed hhost).trans (Bool.or_false _).symm
    cases hd : deal m with
    | none => exact ⟨hlast.trans hkey, hevents, hdestroyed⟩
    | some d =>
      obtain ⟨i, v, rfl⟩ := deal_inward hi hd
      exact ⟨hlast.trans hkey, hevents, hdestroyed⟩

/-- The screen over a turn. -/
theorem onScreen_next (hl : Loaded size m.proc) (hown : StoresOwn m) (hnext : m.next = .ok m') {s : Screen}
    (h : OnScreen m s) : OnScreen m' ((deal m).toList.foldl Screen.deal s) := by
  obtain ⟨hcanvas, hframe⟩ := h
  by_cases hset : ∃ index color, current m = .fbset index color
  · obtain ⟨index, color, hat⟩ := hset
    have hi : ¬ DealsWithHost (current m) := by rw [hat]; exact id
    have hbuffer : m'.hostDisplayBuffer = m.hostDisplayBuffer :=
      congrArg Host.hostDisplayBuffer (host_next hl hi hnext)
    obtain ⟨m₁, hrun, rfl⟩ := next_perform hl hnext
    rw [hat] at hrun
    obtain ⟨k, v, hk, -, hv, hram⟩ := fbset_draws hrun
    have hk : pixelOf m index = some k := hk
    have hv : byteOf m color = some v := hv.byteOf
    have hdeal : deal m = some (.set k.toNat v) := by simp only [deal, hat, hk, hv]
    rw [hdeal]
    refine ⟨fun i hi => ?_, hbuffer ▸ hframe⟩
    show m₁.ram (framebufferStart + i) = Function.update s.canvas k.toNat v i
    rw [hram]
    by_cases hik : i = k.toNat
    · rw [hik, Function.update_self, Function.update_self]
    · rw [Function.update_of_ne (by omega), Function.update_of_ne hik]
      exact hcanvas i hi
  · have hother := hown (fun index color hi => hset ⟨index, color, hi⟩) m' hnext
    have hsame : ∀ i < VMconf.framebufferTotSize, m'.ram (framebufferStart + i) = s.canvas i := by
      intro i hi
      rw [hother, hcanvas i hi]
      rintro ⟨-, htop⟩
      have hflag : guiFlag + 1 = framebufferStart := rfl
      have hfits := hl.fits
      have hend := hl.top
      omega
    by_cases hi : DealsWithHost (current m)
    · obtain ⟨m₁, hrun, rfl⟩ := next_perform hl hnext
      cases hat : current m with
      | input arg =>
        rw [hat] at hrun
        obtain ⟨hbuffer, -⟩ := input_takes hrun
        have hbuffer : m₁.hostDisplayBuffer = m.hostDisplayBuffer := hbuffer
        have hdeal : deal m = none ∨ deal m = some .takeKey := by
          simp only [deal, hat]
          split
          · exact .inr rfl
          · exact .inl rfl
        rcases hdeal with hd | hd
        · rw [hd]
          exact ⟨hsame, hbuffer ▸ hframe⟩
        · rw [hd]
          exact ⟨hsame, hbuffer ▸ hframe⟩
      | fbsync =>
        rw [hat] at hrun
        obtain ⟨-, hbuffer, -⟩ := fbsync_shows hrun
        have hdeal : ∃ e, deal m = some (.sync e) := by
          simp only [deal, hat]
          exact ⟨_, rfl⟩
        obtain ⟨e, hd⟩ := hdeal
        rw [hd]
        exact ⟨hsame, hbuffer.trans (painted_congr hcanvas)⟩
      | _ =>
        rw [hat] at hi
        exact hi.elim
    · have hbuffer : m'.hostDisplayBuffer = m.hostDisplayBuffer :=
        congrArg Host.hostDisplayBuffer (host_next hl hi hnext)
      have hd : deal m = none := by
        cases hd : deal m with
        | none => rfl
        | some d =>
          obtain ⟨i, v, rfl⟩ := deal_inward hi hd
          obtain ⟨index, color, -, hat, -⟩ := deal_set hd
          exact absurd ⟨index, color, hat⟩ hset
      rw [hd]
      exact ⟨hsame, hbuffer ▸ hframe⟩

end Machine

/-! ### Runs -/

/-- What a run starts with: what is in the framebuffer, and nothing on display. -/
def Screen.start (vm : VM) : Screen :=
  ⟨fun i => vm.ram (framebufferStart + i), (List.replicate VMconf.framebufferTotSize 0).map some, vm.lastKey⟩

section
variable {vm : VM} {before after : List Process} {proc : Process} {n : Nat} {m : Machine}

theorem screen_run (hs : Session vm (before ++ proc :: after)) (cin : Stdin) (handle : Window)
    (events : List WindowEvent) (hm : Machine.system.after n (.boot vm proc cin handle events) = some m)
    (hown : Machine.system.Within StoresOwn n (.boot vm proc cin handle events)) :
    OnScreen m ((Machine.deals n (.boot vm proc cin handle events)).foldl Screen.deal (.start vm)) := by
  obtain ⟨size, hl⟩ := hs.sound.loaded proc (by simp)
  have hstart : OnScreen (.boot vm proc cin handle events) (.start vm) := ⟨fun _ _ => rfl, rfl⟩
  exact (hown.device (R := fun m s => Loaded size m.proc ∧ OnScreen m s) (fun m m' s hr hc hnext =>
    ⟨(Machine.keeps_next hnext).layout.loaded hr.1, Machine.onScreen_next hr.1 hc hnext hr.2⟩)
    hm ⟨hl, hstart⟩).2

theorem key_run (hs : Session vm (before ++ proc :: after)) (cin : Stdin) (handle : Window)
    (events : List WindowEvent) (hm : Machine.system.after n (.boot vm proc cin handle events) = some m) :
    m.lastKey = ((Machine.deals n (.boot vm proc cin handle events)).foldl Screen.deal (.start vm)).key := by
  obtain ⟨size, hl⟩ := hs.sound.loaded proc (by simp)
  have hall : Machine.system.Within (fun _ => True) n (.boot vm proc cin handle events) := fun _ _ _ _ => trivial
  exact (hall.device (R := fun (m : Machine) (s : Screen) => Loaded size m.proc ∧ m.lastKey = s.key)
    (fun m m' s hr _ hnext =>
      ⟨(Machine.keeps_next hnext).layout.loaded hr.1, (Machine.key_deal hr.1 hnext hr.2).1⟩) hm ⟨hl, rfl⟩).2

theorem events_run {m₀ : Machine} {size : Nat} (hl : Loaded size m₀.proc)
    (hm : Machine.system.after n m₀ = some m) :
    (Machine.deals n m₀).filterMap Deal.event ++ m.events = m₀.events ∧
      m.destroyed = (m₀.destroyed || ((Machine.deals n m₀).filterMap Deal.event).any (·.frame = .closed)) := by
  induction n generalizing m₀ with
  | zero => cases hm; exact ⟨rfl, (Bool.or_false _).symm⟩
  | succ n ih =>
    cases hnext : Machine.system.next m₀ with
    | error e => rw [System.after_succ_error _ hnext] at hm; cases hm
    | ok m₁ =>
      rw [System.after_succ_ok _ hnext] at hm
      obtain ⟨hrest, hclosed⟩ := ih ((Machine.keeps_next hnext).layout.loaded hl) hm
      obtain ⟨-, hturn, hcloses⟩ := Machine.key_deal hl hnext (s := ⟨fun _ => 0, [], m₀.lastKey⟩) rfl
      rw [Machine.deals, System.trace_succ_ok hnext, List.filterMap_append, List.append_assoc, List.any_append,
        ← Bool.or_assoc, ← hcloses]
      exact ⟨(congrArg _ hrest).trans hturn, hclosed⟩

/-- A pixel that is set is one of the screen. -/
theorem set_in_screen (hs : Session vm (before ++ proc :: after)) (cin : Stdin) (handle : Window)
    (events : List WindowEvent) {i : Nat} {v : MemCell}
    (h : .set i v ∈ Machine.deals n (.boot vm proc cin handle events)) : i < VMconf.framebufferTotSize := by
  obtain ⟨size, hl⟩ := hs.sound.loaded proc (by simp)
  obtain ⟨k, t, u, -, ht, hnext, hdeal⟩ := System.mem_trace h
  have hlt := (Machine.keeps_reaches ⟨k, ht⟩).layout.loaded hl
  obtain ⟨m₁, hrun, -⟩ := Machine.next_perform hlt hnext
  obtain ⟨index, color, k, hat, hk, rfl⟩ := Machine.deal_set hdeal
  rw [hat] at hrun
  obtain ⟨k', v', hk', hlt', -⟩ := fbset_draws hrun
  have hk' : pixelOf t index = some k' := hk'
  cases hk.symm.trans hk'
  exact hlt'

/-- **The window shows what was set last.** In every session, as long as nothing but
`FBSET` stores outside the segment: every pixel that is set is one of the screen; the
framebuffer holds at each pixel the colour it was set to last, and what was there before
at the others; and the window shows, through the palette, what the framebuffer held at
the last `FBSYNC`, and nothing before the first. -/
theorem canvas_exact (hs : Session vm (before ++ proc :: after)) (cin : Stdin) (handle : Window)
    (events : List WindowEvent) (hm : Machine.system.after n (.boot vm proc cin handle events) = some m)
    (hown : Machine.system.Within StoresOwn n (.boot vm proc cin handle events)) :
    (∀ i v, .set i v ∈ Machine.deals n (.boot vm proc cin handle events) → i < VMconf.framebufferTotSize) ∧
    (∀ i < VMconf.framebufferTotSize, m.ram (framebufferStart + i) =
      ((Machine.deals n (.boot vm proc cin handle events)).filterMap (Deal.colorAt i)).getLastD
        (vm.ram (framebufferStart + i))) ∧
    (∀ shown e rest, Machine.deals n (.boot vm proc cin handle events) = shown ++ .sync e :: rest →
      (∀ d ∈ rest, d.isSync = false) → m.hostDisplayBuffer.map some =
        painted fun i => (shown.filterMap (Deal.colorAt i)).getLastD (vm.ram (framebufferStart + i))) ∧
    ((∀ d ∈ Machine.deals n (.boot vm proc cin handle events), d.isSync = false) →
      m.hostDisplayBuffer = List.replicate VMconf.framebufferTotSize 0) := by
  have hscreen := screen_run hs cin handle events hm hown
  refine ⟨fun i v => set_in_screen hs cin handle events, fun i hi => ?_, fun shown e rest hdeals hrest => ?_,
    fun hnone => ?_⟩
  · rw [hscreen.canvas i hi, Screen.canvas_deals]
    rfl
  · rw [hscreen.frame, hdeals, Screen.frame_shown hrest]
    exact painted_congr fun i _ => Screen.canvas_deals shown _ i
  · have hframe := hscreen.frame
    rw [Screen.frame_kept hnone] at hframe
    exact List.map_injective_iff.mpr (fun _ _ => Option.some.inj) hframe

end

/-- `FBSET 0, 7` sets the first pixel. -/
theorem canvas_exact_seven : (modeMachine true (setAndSync 7)).nextOr.ram framebufferStart = 7 := by
  have hs : Session (modeMachine true (setAndSync 7)).toVM ([] ++ (modeMachine true (setAndSync 7)).proc :: []) :=
    .load _ (.setGui true .fresh) (load_mode true (by decide))
  have hset : current (modeMachine true (setAndSync 7)) = .fbset ⟨.number, 0⟩ ⟨.number, 7⟩ := by decide
  have hdeals : Machine.deals 1 (modeMachine true (setAndSync 7)) = [.set 0 7] := by decide
  have hpixel := (canvas_exact hs ⟨[], false⟩ .opened []
    (show Machine.system.after 1 (modeMachine true (setAndSync 7)) =
      some (modeMachine true (setAndSync 7)).nextOr from rfl) (fun k hk s hs => by
        obtain rfl : k = 0 := by omega
        cases hs
        exact fun hother => absurd hset (hother _ _))).2.1 0 (by decide)
  rw [show Machine.deals 1 (.boot (modeMachine true (setAndSync 7)).toVM (modeMachine true (setAndSync 7)).proc
    ⟨[], false⟩ .opened []) = [.set 0 7] from hdeals] at hpixel
  exact hpixel

section
variable {vm : VM} {before after : List Process} {proc : Process} {n : Nat} {m : Machine}

/-- **A key is taken once, and only the last one.** In every session: each `FBSYNC` in an
open window lets it report its next event, and the window is freed exactly if one of
these closed it; the last key is the one reported last since a key was taken, or none;
and that is what an `INPUT` stores that finds a window, open or closed since. -/
theorem keys_exact (hs : Session vm (before ++ proc :: after)) (cin : Stdin) (handle : Window)
    (events : List WindowEvent) (hm : Machine.system.after n (.boot vm proc cin handle events) = some m) :
    (Machine.deals n (.boot vm proc cin handle events)).filterMap Deal.event ++ m.events = events ∧
    (m.destroyed = true ↔
      ∃ e ∈ (Machine.deals n (.boot vm proc cin handle events)).filterMap Deal.event, e.frame = .closed) ∧
    (∀ taken rest, Machine.deals n (.boot vm proc cin handle events) = taken ++ .takeKey :: rest →
      .takeKey ∉ rest → m.lastKey = (rest.filterMap Deal.key).getLastD 0) ∧
    (.takeKey ∉ Machine.deals n (.boot vm proc cin handle events) → m.lastKey =
      ((Machine.deals n (.boot vm proc cin handle events)).filterMap Deal.key).getLastD vm.lastKey) ∧
    ∀ arg c m', current m = .input arg → m.deal = some .takeKey → Denotes m arg c → m.next = .ok m' →
      c.value m' = m.lastKey := by
  obtain ⟨size, hl⟩ := hs.sound.loaded proc (by simp)
  have hkey := key_run hs cin handle events hm
  obtain ⟨hevents, hdestroyed⟩ := events_run hl hm
  refine ⟨hevents, ?_, fun taken rest hdeals hrest => ?_, fun hnone => ?_, fun arg c m' hi hd hc hnext => ?_⟩
  · rw [hdestroyed, show (Machine.boot vm proc cin handle events).destroyed = false from rfl, Bool.false_or,
      List.any_eq_true]
    exact exists_congr fun e => and_congr_right fun _ => decide_eq_true_iff
  · rw [hkey, hdeals, Screen.key_taken hrest]
  · rw [hkey, Screen.key_reported hnone]
    rfl
  · obtain ⟨m₁, hrun, rfl⟩ := Machine.next_perform ((Machine.keeps_reaches ⟨n, hm⟩).layout.loaded hl) hnext
    have htakes : m.getGui = true ∧ m.window = .opened := by
      simp only [Machine.deal, hi] at hd
      split at hd
      · assumption
      · cases hd
    rw [hi] at hrun
    obtain ⟨m₂, hv⟩ := input_stores (m := fetched m) ⟨hc.cell, hc.live⟩ hrun
    rcases inputValue_cases hv with ⟨-, hvalue, -⟩ | ⟨hnot, -⟩
    · cases c <;> exact hvalue
    · exact absurd htakes hnot

end

/-- `FBSYNC`, `INPUT A`, `HALT`. -/
def syncThenInput : List MemCell := [0, 2, 0x30, 0x21, 1, 1, 0xFF]

/-- The left arrow is pressed before the first frame is shown. -/
def leftMachine : Machine :=
  .boot (modeMachine true syncThenInput).toVM (modeMachine true syncThenInput).proc ⟨[], false⟩ .opened
    [⟨some 3, .shown⟩]

theorem keys_exact_left : ∃ m, Machine.system.after 1 leftMachine = some m ∧ m.lastKey = 3 := by
  have hfits : syncThenInput.length + 2000 < guiFlag := by decide
  have hload := load_mode true hfits
  have hs : Session (modeMachine true syncThenInput).toVM ([] ++ (modeMachine true syncThenInput).proc :: []) :=
    .load _ (.setGui true .fresh) hload
  obtain ⟨size, hl⟩ := hs.sound.loaded (modeMachine true syncThenInput).proc (by simp)
  have hat : current leftMachine = .fbsync := by decide
  obtain ⟨-, hblack, hwindow⟩ := start_sync hload ⟨[], false⟩ .opened [⟨some 3, .shown⟩]
  have hopen : WindowOpen leftMachine := ⟨hwindow, rfl⟩
  have hstays : WindowStays leftMachine := ⟨hopen, fun e he => by cases he; decide⟩
  obtain ⟨m, hnext, -⟩ := next_fbsync_run (m := leftMachine) hl (by decide) hat hblack hstays
  have hdeal : leftMachine.deal = some (.sync (some ⟨some 3, .shown⟩)) := by
    simp only [Machine.deal, hat]
    exact congrArg some (congrArg Deal.sync (if_pos hopen))
  obtain ⟨hafter, hdeals⟩ := Machine.deals_one hnext hdeal
  have hkey := (keys_exact hs ⟨[], false⟩ .opened [⟨some 3, .shown⟩] hafter).2.2.2.1
  rw [show Machine.deals 1 (.boot (modeMachine true syncThenInput).toVM (modeMachine true syncThenInput).proc
    ⟨[], false⟩ .opened [⟨some 3, .shown⟩]) = _ from hdeals] at hkey
  exact ⟨_, hafter, hkey (by decide)⟩

end CustomIsaVm
